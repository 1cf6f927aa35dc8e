/-
Parentheses among tokens. `Nested` says that they match and that each pair holds something. Where two rows of tokens
with matching parentheses begin alike they are parted alike: the parenthesis that closes a group is determined by what
stands in it (`Nested.close_unique`), and a row is determined by its other tokens (`Nested.front_unique`). The tokens of
a printed definition are nested (`Element.holds_keys`).
-/
import Rulebook.Proofs.Keys

namespace Rulebook

/-- a token that is neither a parenthesis nor a comment -/
def Inner (k : Key) : Prop :=
  k.1 ≠ .symbol .openParen ∧ k.1 ≠ .symbol .closeParen ∧ k.1 ≠ .headComment

instance (k : Key) : Decidable (Inner k) :=
  inferInstanceAs (Decidable (k.1 ≠ .symbol .openParen ∧ k.1 ≠ .symbol .closeParen ∧ k.1 ≠ .headComment))

/-- parentheses match, and something stands in each pair -/
inductive Nested : List Key → Prop where
  | nil : Nested []
  | inner {k : Key} {ks : List Key} : Inner k → Nested ks → Nested (k :: ks)
  | parens {ks ls : List Key} : Nested ks → ks ≠ [] → Nested ls → Nested (parenKeys ks ++ ls)

def loose (ks : List Key) : List Key := ks.filter fun k => decide (Inner k)

/-! ## Rows of tokens -/

namespace Nested

theorem append {ks ls : List Key} (hk : Nested ks) (hl : Nested ls) : Nested (ks ++ ls) := by
  induction hk with
  | nil => exact hl
  | inner h _ ih => exact .inner h ih
  | parens h hne _ _ ih =>
    rw [List.append_assoc]
    exact .parens h hne ih

theorem one {k : Key} (h : Inner k) : Nested [k] := .inner h .nil

theorem ofParens {ks : List Key} (h : Nested ks) (hne : ks ≠ []) : Nested (parenKeys ks) := by
  simpa using Nested.parens h hne .nil

/-- tokens with one token or none between them -/
theorem intercalate {sep : List Key} (hsep : Nested sep) {kss : List (List Key)} (h : ∀ ks ∈ kss, Nested ks) :
    Nested (List.intercalate sep kss) := by
  induction kss with
  | nil => exact .nil
  | cons ks kss ih =>
    have hmore := ih fun x hx => h x (List.mem_cons_of_mem _ hx)
    cases kss with
    | nil => simpa using h ks List.mem_cons_self
    | cons ls kss =>
      rw [List.intercalate_cons_cons]
      exact ((h ks List.mem_cons_self).append hsep).append hmore

theorem no_comment {ks : List Key} (h : Nested ks) : ∀ k ∈ ks, k.1 ≠ .headComment := by
  induction h with
  | nil => exact List.forall_mem_nil _
  | inner h _ ih => exact List.forall_mem_cons.2 ⟨h.2.2, ih⟩
  | parens _ _ _ ih₁ ih₂ =>
    refine List.forall_mem_append.2 ⟨List.forall_mem_cons.2 ⟨nofun, List.forall_mem_append.2 ⟨ih₁, ?_⟩⟩, ih₂⟩
    exact List.forall_mem_singleton.2 nofun

/-- what begins with an inner token is nested behind it -/
theorem of_inner {k : Key} {ks : List Key} (h : Nested (k :: ks)) (hk : Inner k) : Nested ks := by
  generalize hl : k :: ks = l at h
  cases h with
  | nil => cases hl
  | inner _ h =>
    cases hl
    exact h
  | parens _ _ _ =>
    cases hl
    exact absurd rfl hk.1

/-- what begins with an opening parenthesis is a group and what stands behind it -/
theorem of_open {ks : List Key} (h : Nested (Symbol.openParen.key :: ks)) :
    ∃ us vs, ks = us ++ Symbol.closeParen.key :: vs ∧ Nested us ∧ us ≠ [] ∧ Nested vs := by
  generalize hl : Symbol.openParen.key :: ks = l at h
  cases h with
  | nil => cases hl
  | inner hk _ =>
    cases hl
    exact absurd rfl hk.1
  | @parens us vs hus hne hvs =>
    refine ⟨us, vs, ?_, hus, hne, hvs⟩
    simpa [parenKeys] using hl

/-- no closing parenthesis comes first -/
theorem not_close {ks : List Key} : ¬ Nested (Symbol.closeParen.key :: ks) := by
  intro h
  generalize hl : Symbol.closeParen.key :: ks = l at h
  cases h with
  | nil => cases hl
  | inner hk _ =>
    cases hl
    exact hk.2.1 rfl
  | parens _ _ _ => cases hl

/-- the parenthesis that closes what is open is determined -/
theorem close_unique {ks ls us vs : List Key} (hk : Nested ks) (hl : Nested ls)
    (h : ks ++ Symbol.closeParen.key :: us = ls ++ Symbol.closeParen.key :: vs) : ks = ls ∧ us = vs := by
  induction hk generalizing ls us vs with
  | nil =>
    cases ls with
    | nil => exact ⟨rfl, (List.cons.inj h).2⟩
    | cons l ls =>
      cases (List.cons.inj h).1
      exact absurd hl not_close
  | @inner k ks hk _ ih =>
    cases ls with
    | nil =>
      cases (List.cons.inj h).1
      exact absurd rfl hk.2.1
    | cons l ls =>
      obtain ⟨rfl, htail⟩ := List.cons.inj h
      obtain ⟨rfl, hrest⟩ := ih (hl.of_inner hk) htail
      exact ⟨rfl, hrest⟩
  | @parens ks ks' _ _ _ ih₁ ih₂ =>
    cases ls with
    | nil => cases (List.cons.inj h).1
    | cons l ls =>
      obtain ⟨rfl, htail⟩ := List.cons.inj h
      obtain ⟨xs, ys, rfl, hxs, -, hys⟩ := hl.of_open
      obtain ⟨rfl, hbehind⟩ := ih₁ hxs (by simpa using htail)
      obtain ⟨rfl, hrest⟩ := ih₂ hys hbehind
      exact ⟨by simp [parenKeys], hrest⟩

/-- behind a nested row a nested row stands -/
theorem of_append {ks ls : List Key} (hk : Nested ks) (h : Nested (ks ++ ls)) : Nested ls := by
  induction hk with
  | nil => exact h
  | inner hk _ ih => exact ih (h.of_inner hk)
  | @parens us vs hus _ _ _ ih =>
    have hopen : Nested (Symbol.openParen.key :: (us ++ Symbol.closeParen.key :: (vs ++ ls))) := by
      simpa [parenKeys] using h
    obtain ⟨xs, ys, heq, hxs, -, hys⟩ := hopen.of_open
    obtain ⟨-, rfl⟩ := close_unique hus hxs heq
    exact ih hys

end Nested

/-! ## Tokens that are no parentheses -/

theorem loose_append (ks ls : List Key) : loose (ks ++ ls) = loose ks ++ loose ls := List.filter_append ..

theorem loose_cons {k : Key} (h : Inner k) (ks : List Key) : loose (k :: ks) = k :: loose ks :=
  List.filter_cons_of_pos (decide_eq_true h)

theorem loose_parenKeys (ks : List Key) : loose (parenKeys ks) = loose ks := by
  have hopen : ¬ Inner Symbol.openParen.key := by decide
  have hclose : ¬ Inner Symbol.closeParen.key := by decide
  simp [loose, parenKeys, hopen, hclose]

/-- a nested row without other tokens is empty -/
theorem Nested.eq_nil {ks : List Key} (h : Nested ks) (hloose : loose ks = []) : ks = [] := by
  induction h with
  | nil => rfl
  | inner hk _ _ =>
    rw [loose_cons hk] at hloose
    cases hloose
  | parens _ hne _ ih _ =>
    rw [loose_append, loose_parenKeys, List.append_eq_nil_iff] at hloose
    exact absurd (ih hloose.1) hne

/-- of two nested rows that begin the same tokens and have the same inner tokens, none is longer -/
theorem Nested.front_unique {ks ls us vs : List Key} (hk : Nested ks) (hl : Nested ls) (hloose : loose ks = loose ls)
    (h : ks ++ us = ls ++ vs) : ks = ls ∧ us = vs := by
  rcases List.append_eq_append_iff.1 h with ⟨zs, rfl, rfl⟩ | ⟨zs, rfl, rfl⟩
  · rw [loose_append] at hloose
    have hzs := (hk.of_append hl).eq_nil (by simpa using hloose)
    simp [hzs]
  · rw [loose_append] at hloose
    have hzs := (hl.of_append hk).eq_nil (by simpa using hloose)
    simp [hzs]

/-! ## Printed definitions -/

theorem inner_name (n : Text) : Inner (.name, n) := ⟨nofun, nofun, nofun⟩

theorem inner_literal (v : Text) : Inner (.literal, v) := ⟨nofun, nofun, nofun⟩

theorem inner_operator (o : Text) : Inner (operatorKey o) := by
  unfold operatorKey
  split
  · decide
  · split <;> decide

theorem inner_nameKeys (n : Text) : ∀ k ∈ nameKeys n, Inner k := by
  unfold nameKeys
  split
  · exact List.forall_mem_cons.2 ⟨inner_name _, List.forall_mem_cons.2 ⟨by decide,
      List.forall_mem_singleton.2 (inner_name _)⟩⟩
  · exact List.forall_mem_singleton.2 (inner_name n)

theorem inner_gatheringKeys (g : Gathering) : ∀ k ∈ g.keys, Inner k := by cases g <;> decide

theorem nested_nameKeys (t : Text) : Nested (nameKeys t) := by
  unfold nameKeys
  split
  · exact .inner (inner_name _) (.inner (by decide) (.one (inner_name _)))
  · exact .one (inner_name t)

/-- tokens that stand for something: nested ones, and at least one -/
def Holds (ks : List Key) : Prop := Nested ks ∧ ks ≠ []

theorem Holds.one {k : Key} (h : Inner k) : Holds [k] := ⟨.one h, by simp⟩

theorem Holds.cons {k : Key} {ks : List Key} (h : Inner k) (hks : Nested ks) : Holds (k :: ks) :=
  ⟨.inner h hks, by simp⟩

theorem Holds.intercalate {sep : List Key} (hsep : Nested sep) {kss : List (List Key)} (hne : kss ≠ [])
    (h : ∀ ks ∈ kss, Holds ks) : Holds (List.intercalate sep kss) := by
  refine ⟨.intercalate hsep fun ks hks => (h ks hks).1, ?_⟩
  obtain ⟨ks, more, rfl⟩ := List.exists_cons_of_ne_nil hne
  have hfirst := (h ks List.mem_cons_self).2
  cases more <;> simp [List.intercalate_cons_cons, hfirst]

theorem holds_nameKeys (t : Text) : Holds (nameKeys t) := by
  refine ⟨nested_nameKeys t, ?_⟩
  unfold nameKeys
  split <;> simp

namespace Element

theorem holds_dressKeys (context : Nat) (e : Outline) {body : List Key} (h : Holds body) :
    Holds (dressKeys context e body) := by
  refine ⟨.append ?_ (.append ?_ ?_), ?_⟩
  · cases e.decoration.predicate with
    | none => exact .nil
    | some p => cases p <;> exact .one (by decide)
  · split
    · exact h.1.ofParens h.2
    · exact h.1
  · cases e.decoration.cardinality with
    | none => exact .nil
    | some c => cases c <;> exact .one (by decide)
  · have hbody := h.2
    unfold dressKeys
    split <;> simp [hbody, parenKeys]

theorem nested_gathering (g : Gathering) : Nested g.keys := by
  cases g with
  | choice => exact .one (by decide)
  | anyOrder => exact .one (by decide)
  | _ => exact .nil

theorem holds_members {d : Decoration} {g : Gathering} {es : List Outline} (hne : es ≠ [])
    (h : ∀ e ∈ es, Holds e.bodyKeys) : Holds (bodyKeys (compound d g es)) := by
  rw [bodyKeys_compound]
  refine .intercalate (nested_gathering g) (by simpa using hne) ?_
  exact List.forall_mem_map.2 fun e he => holds_dressKeys _ e (h e he)

theorem holds_reference {e : Outline} (h : Referable e) : Holds e.bodyKeys := by
  cases h with
  | keyword v => exact .one (inner_literal v)
  | @call n _ => exact holds_nameKeys n

theorem holds_assignable {e : Outline} (h : Assignable e) : Holds e.bodyKeys := by
  induction h with
  | reference h => exact holds_reference h
  | @crossReference n t _ ht =>
    refine .cons (by decide) ((nested_nameKeys n).append (.append ?_ (.one (by decide))))
    cases t with
    | none => exact .nil
    | some e => exact .inner (by decide) (holds_dressKeys 4 e (holds_reference (ht e rfl))).1
  | choice hlen _ ih => exact holds_members (List.ne_nil_of_length_pos (by omega)) ih

theorem holds_bodyKeys {m : Source.Mode} {e : Outline} (h : Formed m e) : Holds e.bodyKeys := by
  induction h with
  | keyword v _ => exact .one (inner_literal v)
  | @call _ n _ _ => exact holds_nameKeys n
  | assignment _ _ _ he =>
    exact .cons (inner_name _) (.inner (inner_operator _) (holds_dressKeys 4 _ (holds_assignable he)).1)
  | @action _ n _ _ _ _ hf =>
    cases hf with
    | none => exact .cons (by decide) ((nested_nameKeys n).append (.one (by decide)))
    | some _ _ =>
      refine .cons (by decide) ((nested_nameKeys n).append ?_)
      refine .inner (by decide) (.inner (inner_name _) ?_)
      exact .inner (inner_operator _) (.inner (inner_name _) (.one (by decide)))
  | compound _ _ hlen _ ih => exact holds_members (List.ne_nil_of_length_pos (by omega)) ih
  | wrapped _ _ _ ih => exact holds_members (by simp) (List.forall_mem_singleton.2 ih)
  | range l r _ _ => exact .cons (inner_literal l) (.inner (by decide) (.one (inner_literal r)))
  | wildcard _ _ => exact .one (by decide)
  | endOfFile _ _ => exact .one (inner_name _)
  | negated _ _ _ ih => exact .cons (by decide) (holds_dressKeys 4 _ ih).1
  | upTo _ _ _ ih => exact .cons (by decide) (holds_dressKeys 4 _ ih).1

/-- the tokens of a printed definition are nested -/
theorem holds_keys {m : Source.Mode} {e : Outline} (h : Formed m e) (context : Nat) : Holds (e.keys context) :=
  holds_dressKeys context e (holds_bodyKeys h)

end Element

end Rulebook
