/-
Shelves. A reader keeps what it has read, and finds there what it would otherwise look for in the directory. The shelf is
faithful when every grammar on it denotes its name and all that it uses stands on the shelf as well (`Faithful`).

Looking for a used name leaves a faithful shelf with the name on it; the shelf keeps what was there, and what is new are
names that are used, directly or through others, and whose files could be looked for (`Settles`). Reading a file gives a
grammar that denotes what the file states, and the shelf grows in the same way (`Reads`). Both may fail, when a search is
refused.

- `settles_eachUsed`: names are settled one after the other;
- `reads_readWith`: the step, a text is read once its used names can be settled;
- `settles_use`: the step, a name is settled once the file that is found for it can be read;
- `reads_readGrammarWithin`: a file of the directory is read in this way, at any depth;
- `readGrammar_shelved`: a file whose used names all stand on the shelf needs no other file.
-/
import Rulebook.Proofs.Meanings
import Rulebook.Proofs.Session

namespace Rulebook.Library

open Source

/-! ## Faithful shelves -/

/-- all that the grammar uses, directly or through others, stands on the shelf under its name -/
def Shared (shelf : List (Text × Grammar)) (g : Grammar) : Prop :=
  ∀ k, g.Reaches k → ∀ u ∈ k.used, shelf.lookup u.name = some u

/-- what stands on the shelf denotes its name, and so does all that it uses -/
structure Faithful (files : FileTree) (spot : Spot) (shelf : List (Text × Grammar)) : Prop where
  denotes : ∀ name g, shelf.lookup name = some g → Denotes files spot name g
  shared : ∀ name g, shelf.lookup name = some g → Shared shelf g

/-- the shelf keeps what stood on it, stays faithful, and has new names only of a certain kind -/
structure Grown (files : FileTree) (spot : Spot) (new : Text → Prop) (shelf shelf' : List (Text × Grammar)) : Prop where
  faithful : Faithful files spot shelf'
  kept : shelf <+: shelf'
  introduced : ∀ n, (shelf'.lookup n).isSome → (shelf.lookup n).isSome ∨ new n

section

variable {files : FileTree} {directory base : Path} {spot : Spot} {shelf shelf' shelf'' : List (Text × Grammar)}

theorem Shared.mono (h : shelf <+: shelf') {g : Grammar} (hg : Shared shelf g) : Shared shelf' g :=
  fun k hreach u hu => lookup_of_prefix h (hg k hreach u hu)

theorem Grown.refl (new : Text → Prop) (h : Faithful files spot shelf) : Grown files spot new shelf shelf :=
  ⟨h, List.prefix_refl _, fun _ hn => .inl hn⟩

theorem Grown.trans {new : Text → Prop} (h : Grown files spot new shelf shelf') (h' : Grown files spot new shelf' shelf'') :
    Grown files spot new shelf shelf'' where
  faithful := h'.faithful
  kept := h.kept.trans h'.kept
  introduced := by
    intro n hn
    rcases h'.introduced n hn with hn | hn
    · exact h.introduced n hn
    · exact .inr hn

theorem Grown.mono {new new' : Text → Prop} (h : Grown files spot new shelf shelf') (hnew : ∀ n, new n → new' n) :
    Grown files spot new' shelf shelf' :=
  ⟨h.faithful, h.kept, fun n hn => (h.introduced n hn).imp id (hnew n)⟩

theorem Faithful.empty : Faithful files spot Library.empty.shelf := ⟨nofun, nofun⟩

/-- a grammar of a new name that uses grammars of the shelf may stand on it -/
theorem Faithful.add (h : Faithful files spot shelf) {name : Text} {g : Grammar}
    (hdenotes : Denotes files spot name g) (hshared : Shared shelf g) : Faithful files spot (shelf ++ [(name, g)]) := by
  have hold : ∀ n g', (shelf ++ [(name, g)]).lookup n = some g' → shelf.lookup n = some g' ∨ n = name ∧ g' = g := by
    intro n g' hlookup
    rw [List.lookup_append] at hlookup
    rcases Option.or_eq_some_iff.1 hlookup with hlookup | ⟨-, hlookup⟩
    · exact .inl hlookup
    · by_cases hn : n = name
      · rw [hn, List.lookup_cons_self] at hlookup
        exact .inr ⟨hn, (Option.some.inj hlookup).symm⟩
      · have hne : (n == name) = false := by simp [hn]
        simp [List.lookup, hne] at hlookup
  constructor
  · intro n g' hlookup
    rcases hold n g' hlookup with hlookup | ⟨rfl, rfl⟩
    · exact h.denotes n g' hlookup
    · exact hdenotes
  · intro n g' hlookup
    rcases hold n g' hlookup with hlookup | ⟨rfl, rfl⟩
    · exact (h.shared n g' hlookup).mono (List.prefix_append _ _)
    · exact hshared.mono (List.prefix_append _ _)

/-- a grammar that is linked against grammars of the shelf denotes what it is linked from -/
theorem Faithful.linked (h : Faithful files spot shelf) {name : Text} {w : WrittenGrammar} (hmeans : Means files spot name w)
    {used : List Grammar} (hused : w.uses.map (fun n => shelf.lookup n) = used.map some) (id : Nat) :
    Denotes files spot name (w.link id used) ∧ Shared shelf (w.link id used) := by
  have hlength : used.length = w.uses.length := by simpa using (congrArg List.length hused).symm
  have hlookup : ∀ i (hi : i < w.uses.length) (hi' : i < used.length), shelf.lookup w.uses[i] = some used[i] := by
    intro i hi hi'
    have hat := congrArg (fun os => os[i]?) hused
    simpa [List.getElem?_eq_getElem hi, List.getElem?_eq_getElem hi'] using hat
  constructor
  · refine .linked id hmeans hlength fun p hp => ?_
    obtain ⟨i, hi, rfl⟩ := List.mem_iff_getElem.1 hp
    rw [List.length_zip, Nat.lt_min] at hi
    rw [List.getElem_zip]
    exact h.denotes _ _ (hlookup i hi.1 hi.2)
  · have hshelf : ∀ u ∈ used, ∃ n, shelf.lookup n = some u := by
      intro u hu
      obtain ⟨i, hi, rfl⟩ := List.mem_iff_getElem.1 hu
      exact ⟨_, hlookup i (hlength ▸ hi) hi⟩
    intro k hreach u hu
    cases hreach with
    | self =>
      obtain ⟨n, hn⟩ := hshelf u hu
      rwa [(h.denotes n u hn).name_eq]
    | used hv hmore =>
      obtain ⟨n, hn⟩ := hshelf _ hv
      exact h.shared n _ hn k hmore u hu

/-! ## Looking for used names -/

/-- a search for the file of the name, from a grammar in the directory `base`, is not refused -/
def Searchable (files : FileTree) (directory base : Path) (name : Text) : Prop :=
  ∃ found, findFile? files [base, directory] name = .ok found

/-- the name is among the names, or used by them, directly or through others, and can be looked for -/
def Met (files : FileTree) (directory base : Path) (spot : Spot) (names : List Text) (n : Text) : Prop :=
  ∃ name ∈ names, Relation.ReflTransGen (NameUses files spot) name n ∧
    (n = builtinName ∨ Searchable files directory base n)

/-- the search for one of the names, or for one that they use, directly or through others, is refused -/
def Refused (files : FileTree) (directory base : Path) (spot : Spot) (names : List Text) (e : ReadError) : Prop :=
  ∃ name ∈ names, ∃ n, Relation.ReflTransGen (NameUses files spot) name n ∧ n ≠ builtinName ∧
    findFile? files [base, directory] n = .error e

/-- the outcome of looking for names: it is refused for its depth, or gives what then stands on the shelf under the
names, or a search was refused on the way; the shelf grows by names that were met -/
inductive Settles {α : Type} (files : FileTree) (directory base : Path) (spot : Spot) (grammars : α → List Grammar)
    (names : List Text) (l : Library) : Outcome α → Prop where
  | tooDeep {o : Outcome α} : o.TooDeep → Settles files directory base spot grammars names l o
  | shelved {a : α} {l' : Library} : Grown files spot (Met files directory base spot names) l.shelf l'.shelf →
    names.map (fun n => l'.shelf.lookup n) = (grammars a).map some →
    Settles files directory base spot grammars names l (.ok a, l')
  | refused {e : ReadError} {l' : Library} : Grown files spot (Met files directory base spot names) l.shelf l'.shelf →
    Refused files directory base spot names e → Settles files directory base spot grammars names l (.error e, l')

/-- the outcome of reading the file of a grammar: it is refused for its depth, or gives a grammar that denotes what the
file states and goes on the shelf unless its name stands there, or the search for a used name was refused -/
inductive Reads (files : FileTree) (directory base : Path) (spot : Spot) (w : WrittenGrammar) (l : Library) :
    Outcome Grammar → Prop where
  | tooDeep {o : Outcome Grammar} : o.TooDeep → Reads files directory base spot w l o
  | linked {g : Grammar} {l' : Library} :
    Grown files spot (fun n => n = w.name ∨ Met files directory base spot w.uses n) l.shelf l'.shelf →
    Denotes files spot w.name g → Shared l'.shelf g → (l.shelf.lookup w.name = none → l'.shelf.lookup w.name = some g) →
    Reads files directory base spot w l (.ok g, l')
  | refused {e : ReadError} {l' : Library} : Grown files spot (Met files directory base spot w.uses) l.shelf l'.shelf →
    Refused files directory base spot w.uses e → Reads files directory base spot w l (.error e, l')

/-- the library when a name is looked for, or the file of a grammar of this name is read: it is faithful, and all open
names use the name -/
structure Seeking (files : FileTree) (spot : Spot) (name : Text) (l : Library) : Prop where
  faithful : Faithful files spot l.shelf
  opened : ∀ o ∈ l.opened, Relation.TransGen (NameUses files spot) o name

/-- a way to look for names that leaves the library in order and settles the names -/
structure SettlesUses (files : FileTree) (directory base : Path) (spot : Spot) (names : List Text)
    (load : Text → Library → Outcome Grammar) : Prop where
  orderly : ∀ name l, (load name l).Orderly l
  settles : ∀ name ∈ names, ∀ l, Seeking files spot name l →
    Settles files directory base spot (fun g => [g]) [name] l (load name l)

theorem SettlesUses.mono {names names' : List Text} {load : Text → Library → Outcome Grammar} (h : names ⊆ names')
    (hload : SettlesUses files directory base spot names' load) : SettlesUses files directory base spot names load :=
  ⟨hload.orderly, fun name hname => hload.settles name (h hname)⟩

theorem Met.mono {names names' : List Text} {n : Text} (h : names ⊆ names')
    (hmet : Met files directory base spot names n) : Met files directory base spot names' n := by
  obtain ⟨name, hname, hn⟩ := hmet
  exact ⟨name, h hname, hn⟩

theorem Refused.mono {names names' : List Text} {e : ReadError} (h : names ⊆ names')
    (hrefused : Refused files directory base spot names e) : Refused files directory base spot names' e := by
  obtain ⟨name, hname, hn⟩ := hrefused
  exact ⟨name, h hname, hn⟩

/-- names are settled one after the other -/
theorem settles_eachUsed {load : Text → Library → Outcome Grammar} (names : List Text) {l : Library}
    (hfaithful : Faithful files spot l.shelf) (hseeking : ∀ name ∈ names, Seeking files spot name l)
    (hload : SettlesUses files directory base spot names load) :
    Settles files directory base spot id names l (eachUsed load names l) := by
  induction names generalizing l with
  | nil => exact .shelved (.refl _ hfaithful) rfl
  | cons name names ih =>
    have hone : [name] ⊆ name :: names := by simp
    have hmore : names ⊆ name :: names := List.subset_cons_self name names
    have hfirst := hload.settles name List.mem_cons_self l (hseeking name List.mem_cons_self)
    have horderly := hload.orderly name l
    unfold eachUsed
    generalize load name l = o at hfirst horderly
    cases hfirst with
    | tooDeep hdeep =>
      obtain ⟨l', rfl⟩ := hdeep.exists_eq
      exact .tooDeep rfl
    | refused hgrown hrefused => exact .refused (hgrown.mono fun _ => Met.mono hone) (hrefused.mono hone)
    | @shelved g l' hgrown hlookup =>
      have hseeking' : ∀ m ∈ names, Seeking files spot m l' := by
        intro m hm
        exact ⟨hgrown.faithful, fun o ho => (hseeking m (hmore hm)).opened o (horderly.opened o ho)⟩
      have hrest := ih hgrown.faithful hseeking' (hload.mono hmore)
      have hgrown := hgrown.mono fun _ => Met.mono hone
      simp only
      generalize eachUsed load names l' = o at hrest
      cases hrest with
      | tooDeep hdeep =>
        obtain ⟨l'', rfl⟩ := hdeep.exists_eq
        exact .tooDeep rfl
      | refused hgrown' hrefused =>
        exact .refused (hgrown.trans (hgrown'.mono fun _ => Met.mono hmore)) (hrefused.mono hmore)
      | @shelved gs l'' hgrown' hall =>
        have hkept : l''.shelf.lookup name = some g := lookup_of_prefix hgrown'.kept (List.singleton_inj.1 hlookup)
        exact .shelved (hgrown.trans (hgrown'.mono fun _ => Met.mono hmore)) (by simpa [hkept] using hall)

/-! ## Reading files -/

/-- a linked grammar goes on the shelf unless its name stands there -/
theorem Faithful.finish {l : Library} (h : Faithful files spot l.shelf) {w : WrittenGrammar} {used : List Grammar}
    (hdenotes : Denotes files spot w.name (w.link l.fresh used)) (hshared : Shared l.shelf (w.link l.fresh used)) :
    Grown files spot (· = w.name) l.shelf (l.finish w used).shelf ∧
      (l.shelf.lookup w.name = none → (l.finish w used).shelf.lookup w.name = some (w.link l.fresh used)) := by
  rw [shelf_finish]
  by_cases hname : (l.shelf.lookup w.name).isSome
  · rw [if_pos hname]
    refine ⟨.refl _ h, fun hnone => ?_⟩
    simp [hnone] at hname
  · rw [if_neg hname]
    refine ⟨⟨h.add hdenotes hshared, List.prefix_append _ _, fun n => (lookup_append_singleton _ _ _ _).1⟩, fun hnone => ?_⟩
    rw [List.lookup_append, hnone, Option.none_or, List.lookup_cons_self]

/-- a grammar is read from its text once the names that it uses are settled -/
theorem reads_readWith (hd : GrammarDirectory files directory spot) {load : Text → Library → Outcome Grammar} {file : Path}
    {source : Text} {w : WrittenGrammar} (hw : WrittenGrammar.ofText file source = .ok w)
    (hmeans : Means files spot w.name w) {l : Library} (hseeking : Seeking files spot w.name l)
    (hload : SettlesUses files directory base spot w.uses load) :
    Reads files directory base spot w l (readWith load file source l) := by
  have huses : ∀ name ∈ w.uses, NameUses files spot w.name name := fun name => (hmeans.uses_iff hd name).1
  have hfaithful : Faithful files spot (l.enter w.name).shelf := (shelf_enter l w.name).symm ▸ hseeking.faithful
  have hinside : ∀ name ∈ w.uses, Seeking files spot name (l.enter w.name) := by
    intro name hname
    refine ⟨hfaithful, fun o ho => ?_⟩
    rcases (mem_opened_enter l w.name o).1 ho with rfl | ho
    · exact .single (huses name hname)
    · exact (hseeking.opened o ho).tail (huses name hname)
  have hsettles := settles_eachUsed w.uses hfaithful hinside hload
  rcases readWith_cases load file source l with ⟨e, he, -⟩ | ⟨w', e, l₁, hw', heach, hread⟩ | ⟨w', used, l₁, hw', heach, hread⟩
  · cases hw.symm.trans he
  · cases hw.symm.trans hw'
    rw [hread]
    rw [heach] at hsettles
    cases hsettles with
    | tooDeep hdeep => exact .tooDeep (congrArg Except.error (Except.error.inj hdeep))
    | refused hgrown hrefused => exact .refused (shelf_enter l w.name ▸ hgrown) hrefused
  · cases hw.symm.trans hw'
    rw [hread]
    rw [heach] at hsettles
    cases hsettles with
    | tooDeep hdeep => exact absurd hdeep (not_tooDeep_ok _ _)
    | shelved hgrown hlookup =>
      obtain ⟨hdenotes, hshared⟩ := hgrown.faithful.linked hmeans hlookup l₁.fresh
      obtain ⟨hgrown', hshelved⟩ := hgrown.faithful.finish hdenotes hshared
      rw [shelf_enter] at hgrown
      refine .linked ((hgrown.mono fun n => .inr).trans (hgrown'.mono fun n => .inl)) hdenotes
        (hshared.mono hgrown'.kept) fun hnone => hshelved ?_
      -- the grammars that it uses do not use it, so they have not put its name on the shelf
      by_contra hsome
      rcases hgrown.introduced w.name (Option.isSome_iff_ne_none.2 hsome) with hshelved | ⟨name, hname, hmore, -⟩
      · simp [hnone] at hshelved
      · exact hd.acyclic w.name (.head' (huses name hname) hmore)

/-- the outcome of reading the file of a name settles the name, if it is not on the shelf and can be looked for -/
theorem Reads.settles {w : WrittenGrammar} (hw : Stated files spot w) {l : Library} {o : Outcome Grammar}
    (h : Reads files directory base spot w l o) (hsearchable : Searchable files directory base w.name)
    (hnone : l.shelf.lookup w.name = none) : Settles files directory base spot (fun g => [g]) [w.name] l o := by
  have hmore : ∀ name ∈ w.uses, ∀ n, Relation.ReflTransGen (NameUses files spot) name n →
      Relation.ReflTransGen (NameUses files spot) w.name n := fun name hname n hn => .head ⟨w, hw, rfl, hname⟩ hn
  have hmet : ∀ n, Met files directory base spot w.uses n → Met files directory base spot [w.name] n := by
    rintro n ⟨name, hname, hn, hfound⟩
    exact ⟨w.name, List.mem_singleton_self _, hmore name hname n hn, hfound⟩
  cases h with
  | tooDeep hdeep => exact .tooDeep hdeep
  | linked hgrown _ _ hshelved =>
    refine .shelved (hgrown.mono fun n hn => ?_) (by simp [hshelved hnone])
    rcases hn with rfl | hn
    · exact ⟨w.name, List.mem_singleton_self _, .refl, .inr hsearchable⟩
    · exact hmet n hn
  | refused hgrown hrefused =>
    obtain ⟨name, hname, n, hn, hne, hfind⟩ := hrefused
    exact .refused (hgrown.mono hmet) ⟨w.name, List.mem_singleton_self _, n, hmore name hname n hn, hne, hfind⟩

/-- the built-in grammar settles its name -/
theorem settles_readBuiltin (hd : GrammarDirectory files directory spot) {l : Library}
    (hseeking : Seeking files spot builtinName l) (hnone : l.shelf.lookup builtinName = none) :
    Settles files directory base spot (fun g => [g]) [builtinName] l (readBuiltin l) := by
  obtain ⟨w, hw, hname, huses⟩ := exists_builtin
  have hmeans : Means files spot w.name w := hname.symm ▸ .builtin hw
  have hreads : Reads files directory base spot w l (readBuiltin l) := by
    refine reads_readWith hd hw hmeans (hname.symm ▸ hseeking) ⟨fun _ _ => orderly_of_same rfl rfl, ?_⟩
    rw [huses]
    exact fun _ h => nomatch h
  generalize readBuiltin l = o at hreads
  cases hreads with
  | tooDeep hdeep => exact .tooDeep hdeep
  | linked hgrown _ _ hshelved =>
    rw [hname] at hgrown hshelved
    refine .shelved (hgrown.mono fun n hn => ?_) (by simp [hshelved hnone])
    rcases hn with rfl | ⟨name, hmem, -⟩
    · exact ⟨builtinName, List.mem_singleton_self _, .refl, .inl rfl⟩
    · rw [huses] at hmem
      cases hmem
  | refused _ hrefused =>
    obtain ⟨name, hmem, -⟩ := hrefused
    rw [huses] at hmem
    cases hmem

/-- looking for a used name settles it, if the file that is found for it is read as it should be -/
theorem settles_use (hd : GrammarDirectory files directory spot) (hbase : files.locate base = .ok spot)
    (hnameable : base.isNameable = true) {load : FileReader} {user : WrittenGrammar} (huser : Stated files spot user)
    {name : Text} (hname : name ∈ user.uses) {l : Library} (hseeking : Seeking files spot name l)
    (hload : ∀ file w, file.parent = base → States files file w → Stated files spot w →
      Seeking files spot w.name l → Reads files directory base spot w l (load file l)) :
    Settles files directory base spot (fun g => [g]) [name] l (use files [base, directory] load name l) := by
  unfold use
  cases hlookup : l.shelf.lookup name with
  | some g => exact .shelved (.refl _ hseeking.faithful) (by simp [hlookup])
  | none =>
    by_cases hopen : name ∈ l.opened
    · exact absurd (hseeking.opened name hopen) (hd.acyclic name)
    by_cases hbuiltin : name = builtinName
    · simp only [if_neg hopen, if_pos hbuiltin]
      subst hbuiltin
      exact settles_readBuiltin hd hseeking hlookup
    simp only [if_neg hopen, if_neg hbuiltin]
    rcases hd.findFile?_cases hbase hnameable (huser.qualified.2 name hname) with
      ⟨file, hfind⟩ | ⟨hfind, hfound⟩ | ⟨hfind, hnone⟩
    · rw [hfind]
      exact .refused (.refl _ hseeking.faithful) ⟨name, List.mem_singleton_self _, name, .refl, hbuiltin, hfind⟩
    · rw [hfind]
      have hparent : files.locate (fileIn base name).parent = .ok spot := by rwa [parent_fileIn]
      obtain ⟨w, hstates, hstated, hsimple⟩ := hd.states_of_findsFile hparent (fileName_fileIn base name) hfound
      obtain rfl := hd.named user w huser hstated name hname hsimple.symm
      exact (hload _ w (parent_fileIn base w.name) hstates hstated hseeking).settles hstated ⟨_, hfind⟩ hlookup
    · rw [hfind]
      -- a grammar of the name alone is put on the shelf
      have hmeans : Means files spot name (bareGrammar name []) := by
        refine .missing hbuiltin ?_
        rintro w ⟨content, hentry, -⟩ rfl
        exact hnone content hentry
      obtain ⟨hdenotes, hshared⟩ := hseeking.faithful.linked hmeans (Eq.refl (List.map some [])) l.fresh
      have hnew : Met files directory base spot [name] name := ⟨name, List.mem_singleton_self _, .refl, .inr ⟨_, hfind⟩⟩
      refine .shelved ⟨hseeking.faithful.add hdenotes hshared, List.prefix_append _ _, fun n hn => ?_⟩ ?_
      · rcases (lookup_append_singleton _ _ _ _).1 hn with hn | rfl
        · exact .inl hn
        · exact .inr hnew
      · simp [missing, List.lookup_append, hlookup, List.lookup_cons_self]

/-- a file of the directory is read as what it states, whatever stands on the shelf -/
theorem reads_readGrammarWithin (hd : GrammarDirectory files directory spot) (hbase : files.locate base = .ok spot)
    (hnameable : base.isNameable = true) (depth : Nat) {file : Path} {w : WrittenGrammar} {l : Library}
    (hparent : file.parent = base) (hstates : States files file w) (hstated : Stated files spot w)
    (hseeking : Seeking files spot w.name l) :
    Reads files directory base spot w l (readGrammarWithin files [directory] depth file l) := by
  induction depth generalizing file w l with
  | zero => exact .tooDeep rfl
  | succ depth ih =>
    obtain ⟨source, htext, hw⟩ := hstates
    rw [readGrammarWithin, htext]
    refine reads_readWith hd hw (.file hstated) hseeking ⟨orderly_use (orderly_readGrammarWithin _ _ depth), ?_⟩
    intro name hname l' hseeking'
    rw [hparent]
    exact settles_use hd hbase hnameable hstated hname hseeking' fun _ _ hparent' hstates' hstated' hseeking'' =>
      ih hparent' hstates' hstated' hseeking''

/-! ## Reading from the shelf -/

/-- names that stand on the shelf are found there -/
theorem eachUsed_shelved {directories : List Path} {load : FileReader} {names : List Text} {used : List Grammar}
    {l : Library} (h : names.map (fun n => l.shelf.lookup n) = used.map some) :
    eachUsed (use files directories load) names l = (.ok used, l) := by
  induction names generalizing used with
  | nil =>
    obtain rfl := List.map_eq_nil_iff.1 h.symm
    rfl
  | cons name names ih =>
    obtain ⟨g, gs, rfl, hg, hgs⟩ := List.map_eq_cons_iff.1 h.symm
    have hfirst : use files directories load name l = (.ok g, l) := by simp only [use, ← hg]
    simp only [eachUsed, hfirst, ih hgs.symm]

/-- a file whose used names all stand on the shelf is linked against what stands there -/
theorem readGrammar_shelved (searchPaths : List Path) {file : Path} {w : WrittenGrammar} {used : List Grammar} {l : Library}
    (hstates : States files file w) (h : w.uses.map (fun n => l.shelf.lookup n) = used.map some) :
    readGrammar files searchPaths file l = (.ok (w.link l.fresh used), (l.enter w.name).finish w used) := by
  obtain ⟨source, htext, hw⟩ := hstates
  have heach : ∀ load, eachUsed (use files (file.parent :: searchPaths) load) w.uses (l.enter w.name) =
      (.ok used, l.enter w.name) := fun load => eachUsed_shelved (by rwa [shelf_enter])
  have hread : ∀ load, readWith (use files (file.parent :: searchPaths) load) file source l =
      (.ok (w.link l.fresh used), (l.enter w.name).finish w used) := by
    intro load
    rw [← fresh_enter l w.name, readWith, hw]
    simp only [heach]
    rfl
  rw [readGrammar, depthLimit, readGrammarWithin, htext]
  exact hread _

end

end Rulebook.Library
