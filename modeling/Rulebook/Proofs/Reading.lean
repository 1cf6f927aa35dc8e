/-
What a reading gives. `Gives r a rest` says that the reading `r` succeeds with the value `a` and leaves `rest`. There is
one statement for each way of putting readings together, so what a reader gives is found from its parts, and nobody has
to look into a step again.

`Behind` lists what stands behind several marks; `gives_behindMarks` says that reading behind marks gives exactly such a
list, up to where no further mark stands.
-/
import Rulebook.Reading
import Mathlib.Tactic

namespace Rulebook.Reading

variable {ε τ α β : Type} {s : List τ} {takes t₁ t₂ : Bool}

/-- the reading succeeds with a value and leaves a rest -/
def Gives (r : Reading ε τ α takes s) (a : α) (rest : List τ) : Prop :=
  ∃ within : Within takes rest s, r = .ok ⟨a, rest, within⟩

namespace Gives

theorem within {r : Reading ε τ α takes s} {a : α} {rest : List τ} (h : r.Gives a rest) : Within takes rest s := h.1

theorem shorter {r : Reading ε τ α true s} {a : α} {rest : List τ} (h : r.Gives a rest) : rest.length < s.length := h.1

theorem notLonger {r : Reading ε τ α takes s} {a : α} {rest : List τ} (h : r.Gives a rest) :
    rest.length ≤ s.length := by
  have hw := h.within
  cases takes <;> omega

/-- a reading gives one value and leaves one rest -/
theorem unique {r : Reading ε τ α takes s} {a b : α} {x y : List τ} (ha : r.Gives a x) (hb : r.Gives b y) :
    a = b ∧ x = y := by
  obtain ⟨_, rfl⟩ := ha
  obtain ⟨_, h⟩ := hb
  cases h
  exact ⟨rfl, rfl⟩

end Gives

/-! ## Readings put together -/

@[simp] theorem gives_error (e : ε) (a : α) (rest : List τ) :
    ¬ Gives (.error e : Reading ε τ α takes s) a rest := by
  intro h
  rcases h with ⟨_, h⟩
  cases h

@[simp] theorem gives_nothing (a b : α) (s rest : List τ) :
    (nothing a s : Reading ε τ α false s).Gives b rest ↔ b = a ∧ rest = s := by
  refine ⟨?_, ?_⟩
  · intro h
    rcases h with ⟨_, h⟩
    cases h
    exact ⟨rfl, rfl⟩
  · intro hread
    rcases hread with ⟨rfl, rfl⟩
    exact ⟨_, rfl⟩

@[simp] theorem gives_first (f : τ → α) (x : τ) (rest : List τ) (a : α) (r : List τ) :
    Gives (.ok ((Step.first x rest).map f) : Reading ε τ α true (x :: rest)) a r ↔ a = f x ∧ r = rest := by
  refine ⟨?_, ?_⟩
  · intro h
    rcases h with ⟨_, h⟩
    cases h
    exact ⟨rfl, rfl⟩
  · intro hread
    rcases hread with ⟨rfl, rfl⟩
    exact ⟨_, rfl⟩

@[simp] theorem gives_map (r : Reading ε τ α takes s) (f : α → β) (b : β) (rest : List τ) :
    (r.map f).Gives b rest ↔ ∃ a, r.Gives a rest ∧ f a = b := by
  cases r with
  | error e => simp [map]
  | ok step =>
    refine ⟨?_, ?_⟩
    · intro h
      rcases h with ⟨_, h⟩
      cases h
      exact ⟨step.value, ⟨step.within, rfl⟩, rfl⟩
    · intro hread
      rcases hread with ⟨a, ⟨_, h⟩, rfl⟩
      cases h
      exact ⟨_, rfl⟩

@[simp] theorem gives_loose (r : Reading ε τ α takes s) (a : α) (rest : List τ) :
    r.loose.Gives a rest ↔ r.Gives a rest := by
  cases r with
  | error e => simp [loose]
  | ok step =>
    refine ⟨?_, ?_⟩
    · intro h
      rcases h with ⟨_, h⟩
      cases h
      exact ⟨step.within, rfl⟩
    · intro hread
      rcases hread with ⟨_, h⟩
      cases h
      exact ⟨_, rfl⟩

@[simp] theorem gives_behind {x : τ} (r : Reading ε τ α takes s) (a : α) (rest : List τ) :
    (r.behind : Reading ε τ α true (x :: s)).Gives a rest ↔ r.Gives a rest := by
  cases r with
  | error e => simp [behind]
  | ok step =>
    refine ⟨?_, ?_⟩
    · intro h
      rcases h with ⟨_, h⟩
      cases h
      exact ⟨step.within, rfl⟩
    · intro hread
      rcases hread with ⟨_, h⟩
      cases h
      exact ⟨_, rfl⟩

theorem gives_next (r : Reading ε τ α t₁ s)
    (readOn : (a : α) → (rest : List τ) → Within t₁ rest s → Reading ε τ β t₂ rest) (b : β) (rest : List τ) :
    (r.next readOn).Gives b rest ↔
      ∃ a mid, ∃ h : Within t₁ mid s, r.Gives a mid ∧ (readOn a mid h).Gives b rest := by
  cases r with
  | error e => simp [next]
  | ok step =>
    obtain ⟨a, mid, hmid⟩ := step
    have hnext : ∀ q : Reading ε τ β t₂ mid, readOn a mid hmid = q →
        ((next (.ok ⟨a, mid, hmid⟩) readOn).Gives b rest ↔ q.Gives b rest) := by
      intro q hq
      simp only [next, hq]
      cases q with
      | error e => simp
      | ok step =>
        refine ⟨?_, ?_⟩
        · intro hread
          rcases hread with ⟨_, h⟩
          cases h
          exact ⟨step.within, rfl⟩
        · intro hread
          rcases hread with ⟨_, h⟩
          cases h
          exact ⟨_, rfl⟩
    rw [hnext _ rfl]
    refine ⟨fun h => ⟨a, mid, hmid, ⟨hmid, rfl⟩, h⟩, ?_⟩
    intro hread
    rcases hread with ⟨a', mid', h', ⟨_, hr⟩, hon⟩
    cases hr
    exact hon

/-- reading on, when what follows does not depend on how much is left -/
@[simp] theorem gives_next' (r : Reading ε τ α t₁ s) (readOn : α → (rest : List τ) → Reading ε τ β t₂ rest) (b : β)
    (rest : List τ) :
    (r.next fun a mid _ => readOn a mid).Gives b rest ↔ ∃ a mid, r.Gives a mid ∧ (readOn a mid).Gives b rest := by
  rw [gives_next]
  refine ⟨?_, ?_⟩
  · intro h
    rcases h with ⟨a, mid, _, h⟩
    exact ⟨a, mid, h⟩
  · intro hread
    rcases hread with ⟨a, mid, h⟩
    exact ⟨a, mid, h.1.within, h⟩

/-- behind a reading whose result is known, reading goes on from that result -/
theorem Gives.next_iff {r : Reading ε τ α t₁ s} {a : α} {mid : List τ} (h : r.Gives a mid)
    {readOn : α → (rest : List τ) → Reading ε τ β t₂ rest} {b : β} {rest : List τ} :
    (r.next fun a mid _ => readOn a mid).Gives b rest ↔ (readOn a mid).Gives b rest := by
  rw [gives_next']
  refine ⟨?_, fun hon => ⟨a, mid, h, hon⟩⟩
  intro hread
  rcases hread with ⟨a', mid', h', hon⟩
  obtain ⟨rfl, rfl⟩ := h.unique h'
  exact hon

/-! ## What is taken -/

/-- what a reading takes stands before what it leaves, and every item of it has a property -/
def Takes (P : τ → Prop) (r : Reading ε τ α takes s) : Prop :=
  ∀ a rest, r.Gives a rest → ∃ taken, taken ++ rest = s ∧ ∀ x ∈ taken, P x

def LeavesEnd (r : Reading ε τ α takes s) : Prop := ∀ a rest, r.Gives a rest → rest <:+ s

theorem takes_error (P : τ → Prop) (e : ε) : Takes P (.error e : Reading ε τ α takes s) :=
  fun a rest h => absurd h (gives_error e a rest)

theorem takes_nothing (P : τ → Prop) (a : α) (s : List τ) : Takes P (nothing a s : Reading ε τ α false s) := by
  intro b rest h
  exact ⟨[], ((gives_nothing ..).1 h).2, List.forall_mem_nil _⟩

namespace Takes

variable {P Q : τ → Prop}

theorem mono {r : Reading ε τ α takes s} (h : r.Takes P) (hPQ : ∀ x, P x → Q x) : r.Takes Q := by
  intro a rest ha
  obtain ⟨taken, hs, htaken⟩ := h a rest ha
  exact ⟨taken, hs, fun x hx => hPQ x (htaken x hx)⟩

/-- a reading that takes items takes items -/
theorem any {r : Reading ε τ α takes s} (h : r.Takes P) : r.Takes fun _ => True := h.mono fun _ _ => trivial

theorem leavesEnd {r : Reading ε τ α takes s} (h : r.Takes P) : r.LeavesEnd :=
  fun a rest ha => (h a rest ha).imp fun _ => And.left

theorem map {r : Reading ε τ α takes s} (h : r.Takes P) (f : α → β) : (r.map f).Takes P := by
  intro b rest hb
  obtain ⟨a, ha, -⟩ := (gives_map ..).1 hb
  exact h a rest ha

theorem loose {r : Reading ε τ α takes s} (h : r.Takes P) : r.loose.Takes P :=
  fun a rest ha => h a rest ((gives_loose ..).1 ha)

theorem behind {x : τ} {r : Reading ε τ α takes s} (hx : P x) (h : r.Takes P) :
    (r.behind : Reading ε τ α true (x :: s)).Takes P := by
  intro a rest ha
  obtain ⟨taken, rfl, htaken⟩ := h a rest ((gives_behind ..).1 ha)
  exact ⟨x :: taken, rfl, List.forall_mem_cons.2 ⟨hx, htaken⟩⟩

theorem next {r : Reading ε τ α t₁ s} (h : r.Takes P)
    {readOn : (a : α) → (rest : List τ) → Within t₁ rest s → Reading ε τ β t₂ rest}
    (hon : ∀ a mid within, (readOn a mid within).Takes P) : (r.next readOn).Takes P := by
  intro b rest hb
  obtain ⟨a, mid, hmid, ha, hread⟩ := (gives_next ..).1 hb
  obtain ⟨first, hs, hfirst⟩ := h a mid ha
  obtain ⟨more, hmore, hmoreP⟩ := hon a mid hmid b rest hread
  exact ⟨first ++ more, by rw [List.append_assoc, hmore, hs], List.forall_mem_append.2 ⟨hfirst, hmoreP⟩⟩

end Takes

/-! ## Marks -/

def AtMark (isMark : τ → Bool) (s : List τ) : Prop :=
  ∃ x rest, s = x :: rest ∧ isMark x = true

@[simp] theorem atMark_cons (isMark : τ → Bool) (x : τ) (s : List τ) : AtMark isMark (x :: s) ↔ isMark x = true := by
  simp [AtMark]

@[simp] theorem not_atMark_nil (isMark : τ → Bool) : ¬ AtMark isMark ([] : List τ) := by
  simp [AtMark]

theorem gives_meaning? (meaning : τ → Option α) (s rest : List τ) (a : Option α) :
    (meaning? meaning s : Reading ε τ (Option α) false s).Gives a rest ↔
      (a = none ∧ rest = s ∧ ∀ x ∈ s.head?, meaning x = none) ∨
        ∃ x v, s = x :: rest ∧ meaning x = some v ∧ a = some v := by
  cases s with
  | nil => simp [meaning?]
  | cons x rest' =>
    cases hx : meaning x with
    | none => simp [meaning?, hx]
    | some v =>
      have hread : meaning? meaning (x :: rest') = (.ok ((Step.first x rest').loose.map fun _ => some v) :
          Reading ε τ (Option α) false (x :: rest')) := by
        simp [meaning?, hx]
      rw [hread]
      refine ⟨?_, ?_⟩
      · intro h
        rcases h with ⟨_, h⟩
        cases h
        exact .inr ⟨x, v, rfl, hx, rfl⟩
      · intro hread
        rcases hread with ⟨_, _, h⟩ | ⟨y, w, h, hy, rfl⟩
        · simp [hx] at h
        · cases h
          rw [hx] at hy
          cases hy
          exact ⟨_, rfl⟩

theorem gives_behindMark? (isMark : τ → Bool) (read : (r : List τ) → Reading ε τ α takes r) (s rest : List τ)
    (a : Option α) :
    (behindMark? isMark read s).Gives a rest ↔
      (a = none ∧ rest = s ∧ ¬ AtMark isMark s) ∨
        ∃ x mid v, s = x :: mid ∧ isMark x = true ∧ (read mid).Gives v rest ∧ a = some v := by
  cases s with
  | nil => simp [behindMark?]
  | cons x mid =>
    cases hx : isMark x
    · simp [behindMark?, hx]
    · simp only [behindMark?, hx, ↓reduceIte, gives_loose, gives_behind, gives_map, atMark_cons, not_true_eq_false,
        and_false, false_or, List.cons.injEq]
      refine ⟨?_, ?_⟩
      · intro h
        rcases h with ⟨v, hv, rfl⟩
        exact ⟨x, mid, v, ⟨rfl, rfl⟩, hx, hv, rfl⟩
      · intro h
        rcases h with ⟨_, _, v, ⟨rfl, rfl⟩, _, hv, rfl⟩
        exact ⟨v, hv, rfl⟩

theorem takes_behindMark? {P : τ → Prop} {isMark : τ → Bool} (hmark : ∀ x, isMark x = true → P x)
    {read : (r : List τ) → Reading ε τ α takes r} (hread : ∀ r, (read r).Takes P) (s : List τ) :
    (behindMark? isMark read s).Takes P := by
  intro a rest h
  rcases (gives_behindMark? ..).1 h with ⟨-, rfl, -⟩ | ⟨x, mid, v, rfl, hx, hv, -⟩
  · exact ⟨[], rfl, List.forall_mem_nil _⟩
  · obtain ⟨taken, rfl, htaken⟩ := hread mid v rest hv
    exact ⟨x :: taken, rfl, List.forall_mem_cons.2 ⟨hmark x hx, htaken⟩⟩

/-- values behind marks, as many as there are: each is read from behind its mark, up to where the next mark stands -/
inductive Behind (isMark : τ → Bool) (reads : List τ → α → List τ → Prop) : List τ → List α → List τ → Prop where
  | stop {s : List τ} : ¬ AtMark isMark s → Behind isMark reads s [] s
  | more {x : τ} {s mid rest : List τ} {a : α} {as : List α} :
    isMark x = true → reads s a mid → Behind isMark reads mid as rest → Behind isMark reads (x :: s) (a :: as) rest

theorem Behind.taken {P : τ → Prop} {isMark : τ → Bool} (hmark : ∀ x, isMark x = true → P x)
    {reads : List τ → α → List τ → Prop}
    (hreads : ∀ s a rest, reads s a rest → ∃ taken, taken ++ rest = s ∧ ∀ x ∈ taken, P x) {s rest : List τ} {as : List α}
    (h : Behind isMark reads s as rest) : ∃ taken, taken ++ rest = s ∧ ∀ x ∈ taken, P x := by
  induction h with
  | stop _ => exact ⟨[], rfl, List.forall_mem_nil _⟩
  | @more x _ _ _ _ _ hx hread _ ih =>
    obtain ⟨first, rfl, hfirst⟩ := hreads _ _ _ hread
    obtain ⟨more, rfl, hmore⟩ := ih
    exact ⟨x :: (first ++ more), by simp, List.forall_mem_cons.2 ⟨hmark x hx, List.forall_mem_append.2 ⟨hfirst, hmore⟩⟩⟩

theorem gives_behindMarks {bound : Nat} (isMark : τ → Bool) (read : (r : List τ) → Reading ε τ α takes r)
    (s : List τ) (h : s.length ≤ bound) (as : List α) (rest : List τ) :
    (behindMarks isMark (fun r _ => read r) s h).Gives as rest ↔
      Behind isMark (fun r a mid => (read r).Gives a mid) s as rest := by
  induction hn : s.length using Nat.strong_induction_on generalizing s as with
  | _ n ih =>
    cases s with
    | nil =>
      rw [behindMarks, gives_nothing]
      refine ⟨?_, ?_⟩
      · intro hread
        rcases hread with ⟨rfl, rfl⟩
        exact .stop (not_atMark_nil isMark)
      · intro h
        cases h
        exact ⟨rfl, rfl⟩
    | cons x s =>
      rw [behindMarks]
      cases hx : isMark x
      · simp only [Bool.false_eq_true, ↓reduceIte, gives_nothing]
        refine ⟨?_, ?_⟩
        · intro hread
          rcases hread with ⟨rfl, rfl⟩
          exact .stop (by simp [hx])
        · intro h
          cases h with
          | stop => exact ⟨rfl, rfl⟩
          | more hmark => simp [hx] at hmark
      · simp only [↓reduceIte, gives_loose, gives_behind, gives_next, gives_map]
        refine ⟨?_, ?_⟩
        · intro hread
          rcases hread with ⟨a, mid, _, ha, as', has, rfl⟩
          have hlt : mid.length < n := by
            have := ha.notLonger
            simp only [List.length_cons] at hn
            omega
          exact .more hx ha ((ih _ hlt mid _ as' rfl).1 has)
        · intro h
          cases h with
          | stop hstop => simp [hx] at hstop
          | more _ ha has =>
            have hlt := ha.notLonger
            simp only [List.length_cons] at hn
            exact ⟨_, _, ha.within, ha, _, (ih _ (by omega) _ (by simp only [List.length_cons] at h; omega) _ rfl).2 has,
              rfl⟩

end Rulebook.Reading
