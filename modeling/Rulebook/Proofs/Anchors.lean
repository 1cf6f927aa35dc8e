/-
Anchors of the rules on a page. A rule whose slug is taken tries one number after the other behind it. There are more
numbers to try than slugs taken, so the trying ends (`finds_claim`); what it finds is free, so no anchor is given twice
and none is that of a heading ahead of the rules (`nodup_claimAll`).

Beside it stands a slugger that goes through all headings of a page from the title on and knows nothing at first. For
names that are identifiers it gives the rules the same anchors (`anchors_sound`), although the anchors are found without
looking at the title: the slug of the title has a hyphen with a letter behind it, so no identifier has that slug, with a
number behind it or without.
-/
import Mathlib
import Rulebook.Document.Anchor
import Rulebook.Proofs.Names

namespace Rulebook

open Source

theorem Text.ofNat_injective : Function.Injective Text.ofNat := by
  intro n m h
  have hdigits : Nat.toDigits 10 n = Nat.toDigits 10 m :=
    List.map_injective_iff.2 (fun c d => (CodePoint.ofChar_inj c d).1) h
  rw [← Nat.ofDigitChars_ten_toDigits (n := n), hdigits, Nat.ofDigitChars_ten_toDigits]

namespace Slugs

variable {s s' : Slugs} {base t u : Text}

/-! ## Slugs that are taken -/

theorem numbered_injective (base : Text) : Function.Injective (numbered base) :=
  fun _ _ h => Text.ofNat_injective (List.append_cancel_left h)

theorem taken_iff : s.taken t = true ↔ t ∈ s.map Prod.fst := by
  rw [taken, List.lookup_isSome_iff, List.mem_map]
  exact exists_congr fun p => and_congr_right fun _ => beq_iff_eq.trans eq_comm

theorem taken_eq_false : s.taken t = false ↔ s.lookup t = none := by
  simp [taken]

theorem keys_count (s : Slugs) (base : Text) (n : Nat) : (s.count base n).map Prod.fst = s.map Prod.fst := by
  rw [count, List.map_map]
  refine List.map_congr_left fun p _ => ?_
  simp only [Function.comp_apply]
  split <;> rfl

theorem taken_count (s : Slugs) (base t : Text) (n : Nat) : (s.count base n).taken t = s.taken t := by
  rw [Bool.eq_iff_iff, taken_iff, taken_iff, keys_count]

theorem count_count (s : Slugs) (base : Text) (n m : Nat) : (s.count base n).count base m = s.count base m := by
  rw [count, count, List.map_map, count]
  refine List.map_congr_left fun p _ => ?_
  by_cases h : p.1 = base <;> simp [h]

theorem lookup_count (s : Slugs) (base t : Text) (n : Nat) :
    (s.count base n).lookup t = if t = base then (s.lookup t).map fun _ => n else s.lookup t := by
  induction s with
  | nil => simp [count]
  | cons p s ih =>
    have hcons : count (p :: s) base n = (p.1, if p.1 = base then n else p.2) :: count s base n := by
      by_cases h : p.1 = base <;> simp [count, h]
    rw [hcons, List.lookup_cons, List.lookup_cons, ih]
    by_cases hp : t = p.1
    · subst hp
      by_cases hbase : p.1 = base <;> simp [hbase]
    · have hne : (t == p.1) = false := by simpa using hp
      rw [hne]

theorem lookup_add (s : Slugs) (t u : Text) (h : s.lookup t = none) :
    (s ++ [(t, 0)]).lookup u = if u = t then some 0 else s.lookup u := by
  rw [List.lookup_append]
  by_cases hu : u = t
  · subst hu
    simp [h]
  · have hne : (u == t) = false := by simpa using hu
    simp [List.lookup, hu, hne]

/-! ## The first free number -/

/-- of more numbers than there are slugs taken, one makes a free slug -/
theorem exists_free (s : Slugs) (base : Text) (last : Nat) :
    ∃ n ∈ List.range' (last + 1) (s.length + 1), s.taken (numbered base n) = false := by
  by_contra hall
  push Not at hall
  have hsubset : (List.range' (last + 1) (s.length + 1)).map (numbered base) ⊆ s.map Prod.fst := by
    intro u hu
    obtain ⟨n, hn, rfl⟩ := List.mem_map.1 hu
    exact taken_iff.1 (by simpa using hall n hn)
  have hnodup := (List.nodup_range' (s := last + 1) (n := s.length + 1)).map (numbered_injective base)
  have hle := (hnodup.subperm hsubset).length_le
  simp at hle

/-- the first free number behind the last one given -/
theorem freeNumber_spec (s : Slugs) (base : Text) (last : Nat) : last < s.freeNumber base last ∧
    s.taken (numbered base (s.freeNumber base last)) = false ∧
      ∀ m, last < m → m < s.freeNumber base last → s.taken (numbered base m) = true := by
  obtain ⟨i, hi⟩ : ∃ i, (List.range' (last + 1) (s.length + 1)).find? (fun n => !s.taken (numbered base n)) = some i := by
    obtain ⟨n, hn, hfree⟩ := exists_free s base last
    exact Option.isSome_iff_exists.1 (List.find?_isSome.2 ⟨n, hn, by simp [hfree]⟩)
  have hnumber : s.freeNumber base last = i := by rw [freeNumber, hi, Option.getD_some]
  obtain ⟨hfree, hrange, hbefore⟩ := List.find?_range'_eq_some.1 hi
  rw [hnumber]
  refine ⟨(List.mem_range'_1.1 hrange).1, by simpa using hfree, fun m hlast hm => ?_⟩
  simpa using hbefore m hlast hm

/-- a slug is claimed as it is when it is free, else with the first free number behind the last one given -/
theorem claim_cases (s : Slugs) (base : Text) :
    (s.lookup base = none ∧ s.claim base = (base, s ++ [(base, 0)])) ∨
      ∃ last n, s.lookup base = some last ∧ last < n ∧ s.lookup (numbered base n) = none ∧
        (∀ m, last < m → m < n → s.taken (numbered base m) = true) ∧
        s.claim base = (numbered base n, s.count base n ++ [(numbered base n, 0)]) := by
  rw [claim]
  cases hlookup : s.lookup base with
  | none => exact .inl ⟨rfl, rfl⟩
  | some last =>
    obtain ⟨hlast, hfree, hbefore⟩ := freeNumber_spec s base last
    exact .inr ⟨last, _, rfl, hlast, taken_eq_false.1 hfree, hbefore, rfl⟩

theorem claim_fresh (s : Slugs) (base : Text) : (s.claim base).1 ∉ s.map Prod.fst := by
  rw [← taken_iff, Bool.not_eq_true, taken_eq_false]
  rcases claim_cases s base with ⟨hfree, hclaim⟩ | ⟨last, n, -, -, hfree, -, hclaim⟩
  · rwa [hclaim]
  · rwa [hclaim]

theorem keys_claim (s : Slugs) (base : Text) :
    (s.claim base).2.map Prod.fst = s.map Prod.fst ++ [(s.claim base).1] := by
  rcases claim_cases s base with ⟨-, hclaim⟩ | ⟨last, n, -, -, -, -, hclaim⟩
  · rw [hclaim, List.map_append]
    rfl
  · rw [hclaim, List.map_append, keys_count]
    rfl

/-- no anchor is given twice, nor one that was taken before -/
theorem nodup_claimAll (s : Slugs) (bases : List Text) :
    (s.claimAll bases).Nodup ∧ ∀ t ∈ s.claimAll bases, t ∉ s.map Prod.fst := by
  induction bases generalizing s with
  | nil => exact ⟨List.nodup_nil, nofun⟩
  | cons base bases ih =>
    obtain ⟨hnodup, hfresh⟩ := ih (s.claim base).2
    simp only [keys_claim, List.mem_append, List.mem_singleton, not_or] at hfresh
    rw [claimAll]
    refine ⟨List.nodup_cons.2 ⟨fun hmem => (hfresh _ hmem).2 rfl, hnodup⟩, ?_⟩
    exact List.forall_mem_cons.2 ⟨claim_fresh s base, fun t ht => (hfresh t ht).1⟩

/-! ## Trying one number after the other -/

/-- the next slug to try: the next number is given to the slug and put behind it -/
def retry (s : Slugs) (base : Text) : Text × Slugs :=
  let n := (s.lookup base).getD 0 + 1
  (numbered base n, s.count base n)

/-- going on from a slug `t`, with the next number behind `base` as long as the slug is taken, ends with a free slug,
which is taken then -/
inductive Finds (base : Text) : Text → Slugs → Text → Slugs → Prop where
  | free {t : Text} {s : Slugs} : s.taken t = false → Finds base t s t (s ++ [(t, 0)])
  | taken {t u : Text} {s s' : Slugs} : s.taken t = true → Finds base (s.retry base).1 (s.retry base).2 u s' →
      Finds base t s u s'

/-- the anchors found for some slugs, one after the other -/
inductive FindsAll : Slugs → List Text → List Text → Prop where
  | nil (s : Slugs) : FindsAll s [] []
  | cons {s s' : Slugs} {base t : Text} {bases ts : List Text} : Finds base base s t s' → FindsAll s' bases ts →
      FindsAll s (base :: bases) (t :: ts)

/-- the trying comes to the first free number: by induction on how many numbers are in between -/
theorem finds_number {last n : Nat} (ht : s.taken t = true) (hbase : s.lookup base = some last) (hlast : last < n)
    (hfree : s.lookup (numbered base n) = none)
    (hbefore : ∀ m, last < m → m < n → s.taken (numbered base m) = true) :
    Finds base t s (numbered base n) (s.count base n ++ [(numbered base n, 0)]) := by
  obtain ⟨k, rfl⟩ := Nat.exists_eq_add_of_lt hlast
  have hretry : ∀ {s : Slugs} {last : Nat}, s.lookup base = some last →
      s.retry base = (numbered base (last + 1), s.count base (last + 1)) := by
    intro s last h
    rw [retry, h, Option.getD_some]
  induction k generalizing s t last with
  | zero =>
    refine .taken ht ?_
    rw [hretry hbase]
    exact .free (by rw [taken_count, taken_eq_false, hfree])
  | succ k ih =>
    have hnext : last + (k + 1) + 1 = last + 1 + k + 1 := by omega
    rw [hnext] at hfree hbefore ⊢
    have htaken : (s.count base (last + 1)).taken (numbered base (last + 1)) = true := by
      rw [taken_count]
      exact hbefore _ (by omega) (by omega)
    have hcounted : (s.count base (last + 1)).lookup base = some (last + 1) := by
      rw [lookup_count, if_pos rfl, hbase, Option.map_some]
    have hfinds := ih htaken hcounted (by omega) (by rwa [← taken_eq_false, taken_count, taken_eq_false])
      fun m hm hmn => by rw [taken_count]; exact hbefore m (by omega) hmn
    rw [count_count] at hfinds
    refine .taken ht ?_
    rw [hretry hbase]
    exact hfinds

/-- the trying ends with the anchor that is claimed -/
theorem finds_claim (s : Slugs) (base : Text) : Finds base base s (s.claim base).1 (s.claim base).2 := by
  rcases claim_cases s base with ⟨hfree, hclaim⟩ | ⟨last, n, hbase, hlast, hfree, hbefore, hclaim⟩
  · rw [hclaim]
    exact .free (taken_eq_false.2 hfree)
  · rw [hclaim]
    exact finds_number (by simp [taken, hbase]) hbase hlast hfree hbefore

theorem findsAll_claimAll (s : Slugs) (bases : List Text) : FindsAll s bases (s.claimAll bases) := by
  induction bases generalizing s with
  | nil => exact .nil s
  | cons base bases ih => exact .cons (finds_claim s base) (ih _)

end Slugs

/-! ## The headings of a page -/

/-- what a slugger knows: the slugs it has given, each with the last number behind it -/
abbrev Slugger := Text → Option Nat

namespace Slugger

variable {k k₁ k₂ : Slugger} {base t u : Text}

/-- nothing is given yet -/
def fresh : Slugger := fun _ => none

/-- the slugger gives the next heading a slug and knows it from then on: the slug of the heading when it has not been
given yet, else the first that has not been given of those with a higher number behind them than the last one -/
inductive Gives (k : Slugger) (base : Text) : Text → Slugger → Prop where
  | plain : k base = none → Gives k base base (Function.update k base (some 0))
  | numbered {last n : Nat} : k base = some last → last < n → k (Slugs.numbered base n) = none →
      (∀ m, last < m → m < n → k (Slugs.numbered base m) ≠ none) →
      Gives k base (Slugs.numbered base n)
        (Function.update (Function.update k base (some n)) (Slugs.numbered base n) (some 0))

/-- the slugs that the slugger gives some headings, one after the other -/
inductive GivesAll : Slugger → List Text → List Text → Prop where
  | nil (k : Slugger) : GivesAll k [] []
  | cons {k k' : Slugger} {base t : Text} {bases ts : List Text} : Gives k base t k' → GivesAll k' bases ts →
      GivesAll k (base :: bases) (t :: ts)

theorem Gives.unique (h₁ : Gives k base t k₁) (h₂ : Gives k base u k₂) : t = u ∧ k₁ = k₂ := by
  cases h₁ with
  | plain hfree =>
    cases h₂ with
    | plain _ => exact ⟨rfl, rfl⟩
    | numbered hgiven _ _ _ => cases hfree.symm.trans hgiven
  | @numbered last n hgiven hlast hfree hbefore =>
    cases h₂ with
    | plain hfree' => cases hfree'.symm.trans hgiven
    | @numbered last' m hgiven' hlast' hfree' hbefore' =>
      obtain rfl := Option.some.inj (hgiven.symm.trans hgiven')
      rcases Nat.lt_trichotomy n m with hlt | rfl | hlt
      · exact absurd hfree (hbefore' n hlast hlt)
      · exact ⟨rfl, rfl⟩
      · exact absurd hfree' (hbefore m hlast' hlt)

theorem GivesAll.unique {bases ts us : List Text} (h₁ : GivesAll k bases ts) (h₂ : GivesAll k bases us) : ts = us := by
  induction h₁ generalizing us with
  | nil k =>
    cases h₂
    rfl
  | cons hfirst _ ih =>
    cases h₂ with
    | cons hfirst' hmore =>
      obtain ⟨rfl, rfl⟩ := hfirst.unique hfirst'
      rw [ih hmore]

/-- the slugger knows the slugs that are taken, and one more apart from them -/
def Knows (k : Slugger) (apart : Text) (s : Slugs) : Prop := ∀ t, t ≠ apart → k t = s.lookup t

variable {apart : Text} {s : Slugs}

/-- a slug that has nothing to do with the one apart is given as it is claimed -/
theorem Knows.gives (h : k.Knows apart s) (hbase : base ≠ apart) (hnumbered : ∀ n, Slugs.numbered base n ≠ apart) :
    ∃ k', Gives k base (s.claim base).1 k' ∧ k'.Knows apart (s.claim base).2 := by
  rcases s.claim_cases base with ⟨hfree, hclaim⟩ | ⟨last, n, hgiven, hlast, hfree, hbefore, hclaim⟩
  · rw [hclaim]
    refine ⟨_, .plain (by rw [h _ hbase, hfree]), fun t ht => ?_⟩
    rw [Slugs.lookup_add s base t hfree, Function.update_apply, h t ht]
  · rw [hclaim]
    have hfree' : (s.count base n).lookup (Slugs.numbered base n) = none := by
      rw [← Slugs.taken_eq_false, Slugs.taken_count, Slugs.taken_eq_false, hfree]
    refine ⟨_, .numbered (by rw [h _ hbase, hgiven]) hlast (by rw [h _ (hnumbered n), hfree]) ?_, fun t ht => ?_⟩
    · intro m hm hmn
      rw [h _ (hnumbered m), ← Option.isSome_iff_ne_none]
      exact hbefore m hm hmn
    · rw [Slugs.lookup_add _ _ t hfree', Slugs.lookup_count, Function.update_apply, Function.update_apply, h t ht]
      by_cases ht : t = base
      · simp [ht, hgiven]
      · simp [ht]

theorem Knows.givesAll {bases : List Text} (h : k.Knows apart s)
    (hbases : ∀ base ∈ bases, base ≠ apart ∧ ∀ n, Slugs.numbered base n ≠ apart) :
    GivesAll k bases (s.claimAll bases) := by
  induction bases generalizing k s with
  | nil => exact .nil k
  | cons base bases ih =>
    obtain ⟨⟨hbase, hnumbered⟩, hmore⟩ := List.forall_mem_cons.1 hbases
    obtain ⟨k', hgives, hknows⟩ := h.gives hbase hnumbered
    exact .cons hgives (ih hknows hmore)

end Slugger

/-- the slug of a heading: in lower case, without what is no letter, digit, underscore or hyphen, and with hyphens for
blanks -/
def headingSlug (heading : Text) : Text :=
  ((Text.lowerAfter [] heading).filter fun (c : CodePoint) => c.isWord || c = '-' || c = ' ').map
    fun (c : CodePoint) => if c = ' ' then CodePoint.ofChar '-' else c

def titleHeading (grammar : Text) : Text := "Grammar `" ++ grammar ++ "`"

/-- the headings of a page: the title, those of the contents and of the rules, and that of every rule -/
def Mapping.headings (m : Mapping) (grammar : Text) : List Text :=
  titleHeading grammar :: Text.ofString "Contents" :: Text.ofString "Rules" :: m.docs.map RuleDoc.name

/-! ## Slugs of identifiers -/

section

variable {c : CodePoint} {t u base grammar : Text}

/-- a code point of the basic alphabet in lower case, wherever it stands -/
theorem lowerAt_basic (h : c.val < 0x80) (before after : Text) :
    Text.lowerAt before c after = [c.mapRuns CodePoint.lowerRuns] := by
  rw [Text.lowerAt, if_neg (by omega), if_neg (by omega)]

theorem lowerAfter_basic (h : ∀ c ∈ t, c.val < 0x80) (before : Text) :
    Text.lowerAfter before t = t.map (CodePoint.mapRuns CodePoint.lowerRuns) := by
  induction t generalizing before with
  | nil => rfl
  | cons c t ih =>
    obtain ⟨hc, ht⟩ := List.forall_mem_cons.1 h
    rw [Text.lowerAfter, lowerAt_basic hc, ih ht]
    rfl

theorem headingSlug_append (ht : ∀ c ∈ t, c.val < 0x80) (hu : ∀ c ∈ u, c.val < 0x80) :
    headingSlug (t ++ u) = headingSlug t ++ headingSlug u := by
  have htu : ∀ c ∈ t ++ u, c.val < 0x80 := List.forall_mem_append.2 ⟨ht, hu⟩
  simp only [headingSlug, lowerAfter_basic ht, lowerAfter_basic hu, lowerAfter_basic htu, List.map_append,
    List.filter_append]

theorem namePart_basic (h : Piece.isNamePart c = true) : c.val < 0x80 := by
  simp only [Piece.isNamePart, Piece.isNameStart, CodePoint.inRanges, List.any_cons, List.any_nil, Bool.or_false,
    Bool.or_eq_true, Bool.and_eq_true, decide_eq_true_eq] at h
  omega

/-- a part of a name in lower case is a letter, a digit or an underscore, and what begins a name is no digit -/
theorem lower_namePart (h : Piece.isNamePart c = true) : (c.mapRuns CodePoint.lowerRuns).isSlugPart = true ∧
    (c.mapRuns CodePoint.lowerRuns).isWord = true ∧ c.mapRuns CodePoint.lowerRuns ≠ '-' ∧
    c.mapRuns CodePoint.lowerRuns ≠ ' ' ∧
    (Piece.isNameStart c = true → (c.mapRuns CodePoint.lowerRuns).inRanges [(0x30, 0x39)] = false) := by
  have hall : ∀ n : Fin 0x80, let c : CodePoint := ⟨n, by omega⟩
      Piece.isNamePart c = true → (c.mapRuns CodePoint.lowerRuns).isSlugPart = true ∧
        (c.mapRuns CodePoint.lowerRuns).isWord = true ∧ c.mapRuns CodePoint.lowerRuns ≠ '-' ∧
        c.mapRuns CodePoint.lowerRuns ≠ ' ' ∧
        (Piece.isNameStart c = true → (c.mapRuns CodePoint.lowerRuns).inRanges [(0x30, 0x39)] = false) := by
    decide
  exact hall ⟨c.val, namePart_basic h⟩ h

/-- a name keeps all its parts as a slug -/
theorem slug_of_nameParts (h : ∀ c ∈ t, Piece.isNamePart c = true) :
    slug t = t.map (CodePoint.mapRuns CodePoint.lowerRuns) ∧
      headingSlug t = t.map (CodePoint.mapRuns CodePoint.lowerRuns) := by
  have hbasic := lowerAfter_basic (fun c hc => namePart_basic (h c hc)) []
  rw [slug, headingSlug, hbasic]
  constructor
  · refine List.filter_eq_self.2 (List.forall_mem_map.2 fun c hc => ?_)
    exact (lower_namePart (h c hc)).1
  · rw [List.filter_eq_self.2 (List.forall_mem_map.2 fun c hc => by simp [(lower_namePart (h c hc)).2.1]), List.map_map]
    refine List.map_congr_left fun c hc => ?_
    exact if_neg (lower_namePart (h c hc)).2.2.2.1

theorem nameParts_of_isIdentifier (h : IsIdentifier t) : ∀ c ∈ t, Piece.isNamePart c = true := by
  cases h with
  | intro hstart htail => exact List.forall_mem_cons.2 ⟨isNamePart_of_isNameStart hstart, htail⟩

theorem slug_of_isIdentifier (h : IsIdentifier t) : slug t = headingSlug t := by
  obtain ⟨hslug, hheading⟩ := slug_of_nameParts (nameParts_of_isIdentifier h)
  rw [hslug, hheading]

theorem no_hyphen_of_isIdentifier (h : IsIdentifier t) : CodePoint.ofChar '-' ∉ slug t := by
  have hparts := nameParts_of_isIdentifier h
  rw [(slug_of_nameParts hparts).1]
  intro hmem
  obtain ⟨c, hc, heq⟩ := List.mem_map.1 hmem
  exact (lower_namePart (hparts c hc)).2.2.1 heq

theorem Text.digits_ofNat (n : Nat) : ∀ c ∈ Text.ofNat n, c.inRanges [(0x30, 0x39)] = true := by
  refine List.forall_mem_map.2 fun c hc => ?_
  have hdigit := Nat.isDigit_of_mem_toDigits (by decide) (by decide) hc
  simp only [Char.isDigit, Bool.and_eq_true, decide_eq_true_eq, ge_iff_le, UInt32.le_iff_toNat_le] at hdigit
  have hbounds : 0x30 ≤ c.toNat ∧ c.toNat ≤ 0x39 := hdigit
  simp [CodePoint.inRanges, CodePoint.ofChar, hbounds]

/-- a name with dots begins like an identifier, and all of it belongs to the basic alphabet -/
theorem Qualified.begins (h : Qualified grammar) : ∃ c rest, grammar = c :: rest ∧ Piece.isNameStart c = true ∧
    ∀ d ∈ c :: rest, d.val < 0x80 := by
  obtain ⟨parts, hparts, hidentifiers, rfl⟩ := h
  obtain ⟨first, more, rfl⟩ := List.exists_cons_of_ne_nil hparts
  have hbasic : ∀ d ∈ Text.join "." (first :: more), d.val < 0x80 :=
    Text.forall_mem_join (by decide) fun part hpart d hd =>
      namePart_basic (nameParts_of_isIdentifier (hidentifiers part hpart) d hd)
  obtain ⟨tail, htail⟩ : ∃ tail, Text.join "." (first :: more) = first ++ tail := by
    cases more with
    | nil => exact ⟨[], by simp [Text.join]⟩
    | cons second more => exact ⟨_, by rw [Text.join, List.intercalate_cons_cons, List.append_assoc]⟩
  rw [htail] at hbasic ⊢
  cases hidentifiers first List.mem_cons_self with
  | @intro c rest hstart _ => exact ⟨c, rest ++ tail, rfl, hstart, hbasic⟩

/-- the slug of a title has a hyphen, and behind it no digit -/
theorem headingSlug_title (h : Qualified grammar) : ∃ d w, headingSlug (titleHeading grammar) =
    Text.ofString "grammar" ++ CodePoint.ofChar '-' :: d :: w ∧ d.inRanges [(0x30, 0x39)] = false := by
  obtain ⟨c, rest, rfl, hstart, hbasic⟩ := h.begins
  have hpart := isNamePart_of_isNameStart hstart
  obtain ⟨hc, hrest⟩ := List.forall_mem_cons.1 hbasic
  have hword : headingSlug "Grammar `" = Text.ofString "grammar" ++ [CodePoint.ofChar '-'] := by decide +kernel
  have hquote : headingSlug "`" = [] := by decide +kernel
  have hfirst : headingSlug [c] = [c.mapRuns CodePoint.lowerRuns] :=
    (slug_of_nameParts (List.forall_mem_singleton.2 hpart)).2
  refine ⟨c.mapRuns CodePoint.lowerRuns, headingSlug rest, ?_, (lower_namePart hpart).2.2.2.2 hstart⟩
  have hcons : headingSlug (c :: rest) = c.mapRuns CodePoint.lowerRuns :: headingSlug rest := by
    rw [show c :: rest = [c] ++ rest from rfl, headingSlug_append (List.forall_mem_singleton.2 hc) hrest, hfirst]
    rfl
  have hopening : ∀ c ∈ Text.ofString "Grammar `", c.val < 0x80 := by decide
  have hclosing : ∀ c ∈ Text.ofString "`", c.val < 0x80 := by decide
  rw [titleHeading, headingSlug_append (List.forall_mem_append.2 ⟨hopening, hbasic⟩) hclosing,
    headingSlug_append hopening hbasic, hword, hquote, hcons, List.append_nil, List.append_assoc]
  rfl

/-- no slug without a hyphen is that of a title, with a number behind it or without -/
theorem ne_headingSlug_title (h : Qualified grammar) (hbase : CodePoint.ofChar '-' ∉ base) :
    base ≠ headingSlug (titleHeading grammar) ∧ ∀ n, Slugs.numbered base n ≠ headingSlug (titleHeading grammar) := by
  obtain ⟨d, w, htitle, hd⟩ := headingSlug_title h
  rw [htitle]
  constructor
  · rintro rfl
    simp at hbase
  · intro n hn
    have hdigits := Text.digits_ofNat n
    have hhyphen : CodePoint.ofChar '-' ∉ Text.ofNat n := by
      intro hmem
      have := hdigits _ hmem
      revert this
      decide
    have hsplit : base ++ CodePoint.ofChar '-' :: Text.ofNat n =
        Text.ofString "grammar" ++ CodePoint.ofChar '-' :: d :: w := by
      rw [← hn, Slugs.numbered, List.append_assoc]
      rfl
    obtain ⟨-, -, hnumber⟩ := (List.append_cons_inj_of_notMem hbase hhyphen).1 hsplit
    have := hdigits d (hnumber ▸ List.mem_cons_self)
    rw [hd] at this
    cases this

end

/-! ## Anchors and headings -/

/-- a slugger that comes from the title and the other headings of the page knows the slugs taken from the start -/
theorem givesAll_page {grammar : Text} (h : Qualified grammar) {bases ts : List Text}
    (hbases : ∀ k : Slugger, k.Knows (headingSlug (titleHeading grammar)) .ofPage → k.GivesAll bases ts) :
    Slugger.fresh.GivesAll (headingSlug (titleHeading grammar) :: Text.ofString "contents" :: Text.ofString "rules" :: bases)
      (headingSlug (titleHeading grammar) :: Text.ofString "contents" :: Text.ofString "rules" :: ts) := by
  have hcontents := (ne_headingSlug_title h (show CodePoint.ofChar '-' ∉ Text.ofString "contents" by decide)).1
  have hrules := (ne_headingSlug_title h (show CodePoint.ofChar '-' ∉ Text.ofString "rules" by decide)).1
  have hapart : Text.ofString "rules" ≠ Text.ofString "contents" := by decide
  refine .cons (.plain rfl) (.cons (.plain ?_) (.cons (.plain ?_) (hbases _ fun t ht => ?_)))
  · simp [Slugger.fresh, hcontents]
  · simp [Slugger.fresh, hrules, hapart]
  · simp only [Function.update_apply, Slugger.fresh, Slugs.ofPage, List.lookup_cons, List.lookup_nil, if_neg ht]
    by_cases htRules : t = Text.ofString "rules"
    · subst htRules
      decide
    · by_cases htContents : t = Text.ofString "contents"
      · simp [htContents]
      · have hr : (t == Text.ofString "rules") = false := by simpa using htRules
        have hc : (t == Text.ofString "contents") = false := by simpa using htContents
        simp [htRules, htContents, hr, hc]

/-- values in a row are found under the keys at their places -/
theorem map_lookup_zip {keys : List RuleId} {values : List Text} (h : keys.Nodup) (hlength : keys.length = values.length) :
    keys.map (fun id => ((keys.zip values).lookup id).getD []) = values := by
  induction keys generalizing values with
  | nil => simpa [eq_comm] using hlength
  | cons key keys ih =>
    obtain ⟨value, values, rfl⟩ := List.exists_cons_of_length_eq_add_one hlength.symm
    obtain ⟨hkey, hkeys⟩ := List.nodup_cons.1 h
    rw [List.map_cons, List.zip_cons_cons]
    congr 1
    · simp
    · refine Eq.trans (List.map_congr_left fun id hid => ?_) (ih hkeys (by simpa using hlength))
      have hne : (id == key) = false := beq_eq_false_iff_ne.2 fun heq => hkey (heq ▸ hid)
      rw [List.lookup_cons, hne]

theorem Slugs.length_claimAll (s : Slugs) (bases : List Text) : (s.claimAll bases).length = bases.length := by
  induction bases generalizing s with
  | nil => rfl
  | cons base bases ih => rw [claimAll, List.length_cons, List.length_cons, ih]

/-- **Anchors are sound**, for every mapping, whatever the names of its rules are. The trying ends for every rule, and the
rules get the anchors that are found, no two of them the same and none that of a heading ahead of the rules. When the
names are identifiers, and the grammar has a name of identifiers with dots between them, the slugs of the headings of the
page, one after the other, are those of its first three headings and then the anchors. -/
theorem anchors_sound (m : Mapping) :
    Slugs.FindsAll .ofPage (m.docs.map fun d => slug d.name) m.anchors ∧ m.anchors.Nodup ∧
      Text.ofString "contents" ∉ m.anchors ∧ Text.ofString "rules" ∉ m.anchors ∧
      ((m.map Prod.fst).Nodup → m.map (fun p => m.anchor p.1) = m.anchors) ∧
      ∀ grammar, Qualified grammar → (∀ d ∈ m.docs, IsIdentifier d.name) →
        ∀ slugs, Slugger.fresh.GivesAll ((m.headings grammar).map headingSlug) slugs ↔
          slugs = headingSlug (titleHeading grammar) :: Text.ofString "contents" :: Text.ofString "rules" :: m.anchors := by
  obtain ⟨hnodup, hfresh⟩ := Slugs.nodup_claimAll .ofPage (m.docs.map fun d => slug d.name)
  refine ⟨Slugs.findsAll_claimAll _ _, hnodup, fun h => hfresh _ h (by decide), fun h => hfresh _ h (by decide),
    fun hkeys => ?_, fun grammar hgrammar hnames slugs => ?_⟩
  · have hlength : (m.map Prod.fst).length = m.anchors.length := by
      rw [Mapping.anchors, Slugs.length_claimAll, Mapping.docs, List.length_map, List.length_map, List.length_map]
    have hlookup := map_lookup_zip hkeys hlength
    rwa [List.map_map] at hlookup
  · have hcontents : headingSlug "Contents" = "contents" := (slug_of_nameParts (by decide)).2.trans (by decide)
    have hrules : headingSlug "Rules" = "rules" := (slug_of_nameParts (by decide)).2.trans (by decide)
    have hslugs : (m.docs.map RuleDoc.name).map headingSlug = m.docs.map fun d => slug d.name := by
      rw [List.map_map]
      exact List.map_congr_left fun d hd => (slug_of_isIdentifier (hnames d hd)).symm
    have hgives : Slugger.fresh.GivesAll ((m.headings grammar).map headingSlug)
        (headingSlug (titleHeading grammar) :: Text.ofString "contents" :: Text.ofString "rules" :: m.anchors) := by
      rw [Mapping.headings, List.map_cons, List.map_cons, List.map_cons, hcontents, hrules, hslugs]
      refine givesAll_page hgrammar fun k hknows => hknows.givesAll (List.forall_mem_map.2 fun d hd => ?_)
      exact ne_headingSlug_title hgrammar (no_hyphen_of_isIdentifier (hnames d hd))
    exact ⟨fun h => h.unique hgives, fun h => h ▸ hgives⟩

/-- documents of rules with these names -/
def namedDocs (names : List Text) : Mapping :=
  names.mapIdx fun i name =>
    (.declared 0 i, .ofRule i ⟨⟨.parser false [], name, none, none, none, none⟩, .declared 0 i⟩)

/-- rules whose names differ in case only, and rules that are called like a heading -/
def alikeDocs : Mapping := namedDocs ["Foo", "foo", "Rules", "Grammar", "GRAMMAR", "FOO"]

/-- a generated anchor passes by one that another rule has as it is -/
example : (namedDocs ["a-1", "a", "A", "é", "ü"]).anchors = ["a-1", "a", "a-2", "", "-1"] := by cbv

/-- names that differ in case only get anchors apart, and so do those that are called like a heading of the page -/
theorem alike_names_apart : Qualified "a.Grammar" ∧ (∀ d ∈ alikeDocs.docs, IsIdentifier d.name) ∧
    (alikeDocs.map Prod.fst).Nodup ∧
    alikeDocs.anchors = ["foo", "foo-1", "rules-1", "grammar", "grammar-1", "foo-2"].map Text.ofString ∧
    alikeDocs.map (fun p => alikeDocs.anchor p.1) = alikeDocs.anchors ∧
    Slugger.fresh.GivesAll ((alikeDocs.headings "a.Grammar").map headingSlug)
      (Text.ofString "grammar-agrammar" :: Text.ofString "contents" :: Text.ofString "rules" :: alikeDocs.anchors) := by
  have hgrammar : Qualified "a.Grammar" := by
    refine ⟨["a", "Grammar"].map Text.ofString, by simp, ?_, by decide⟩
    simp only [List.map_cons, List.map_nil, List.forall_mem_cons]
    exact ⟨.intro (by decide) (by decide), .intro (by decide) (by decide), nofun⟩
  have hnames : ∀ d ∈ alikeDocs.docs, IsIdentifier d.name := by
    simp only [alikeDocs, namedDocs, Mapping.docs, List.mapIdx_cons, List.mapIdx_nil, List.map_cons, List.map_nil,
      List.forall_mem_cons]
    exact ⟨.intro (by decide) (by decide), .intro (by decide) (by decide), .intro (by decide) (by decide),
      .intro (by decide) (by decide), .intro (by decide) (by decide), .intro (by decide) (by decide), nofun⟩
  have hkeys : (alikeDocs.map Prod.fst).Nodup := by decide
  have htitle : headingSlug (titleHeading "a.Grammar") = Text.ofString "grammar-agrammar" := by decide +kernel
  obtain ⟨-, -, -, -, hlinks, hpage⟩ := anchors_sound alikeDocs
  have hgives := (hpage _ hgrammar hnames _).2 rfl
  rw [htitle] at hgives
  exact ⟨hgrammar, hnames, hkeys, by decide, hlinks hkeys, hgives⟩

end Rulebook
