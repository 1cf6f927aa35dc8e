/-
Reading from the front of a list. A step is what one act of reading gives: a value, and what is left of the list. Its
type says whether the step takes something, and it carries the proof: what is left is never longer than the list, and
shorter when the step takes something. Steps in a row take something when one of them does, so what is put together
from such steps ends without a further proof.
-/
namespace Rulebook

/-- the rest is shorter than the list when something was taken, and never longer -/
abbrev Within {τ : Type} (takes : Bool) (rest s : List τ) : Prop :=
  match takes with
  | true => rest.length < s.length
  | false => rest.length ≤ s.length

/-- a value read from the front of a list, and what is left of it; `takes` says whether something was taken -/
structure Step (τ α : Type) (takes : Bool) (s : List τ) where
  value : α
  rest : List τ
  within : Within takes rest s

namespace Step

variable {τ α β : Type} {s : List τ}

/-- a value for which nothing is taken -/
def nothing (a : α) (s : List τ) : Step τ α false s :=
  ⟨a, s, Nat.le_refl s.length⟩

def first (x : τ) (rest : List τ) : Step τ τ true (x :: rest) :=
  ⟨x, rest, Nat.lt_succ_self rest.length⟩

/-- the items at the front that belong to a class, as many as there are -/
def takeWhile (p : τ → Bool) (s : List τ) : Step τ (List τ) false s :=
  ⟨s.takeWhile p, s.dropWhile p, (List.dropWhile_suffix p).length_le⟩

/-- a number of items, or all when there are fewer -/
def takeUpTo (count : Nat) (s : List τ) : Step τ (List τ) false s :=
  ⟨s.take count, s.drop count, (List.drop_suffix count s).length_le⟩

/-- the step with another value -/
def map {takes : Bool} (f : α → β) (step : Step τ α takes s) : Step τ β takes s :=
  ⟨f step.value, step.rest, step.within⟩

/-- the step, without saying whether it takes something -/
def loose {takes : Bool} (step : Step τ α takes s) : Step τ α false s :=
  ⟨step.value, step.rest, by
    have h := step.within
    cases takes <;> omega⟩

/-- a step that begins where another one ends, seen from where that one begins -/
def after {t₁ t₂ : Bool} (before : Step τ α t₁ s) (step : Step τ β t₂ before.rest) : Step τ β (t₁ || t₂) s :=
  ⟨step.value, step.rest, by
    have h₁ := before.within
    have h₂ := step.within
    cases t₁ <;> cases t₂ <;> simp only [Bool.or_self, Bool.or_true, Bool.or_false] <;> omega⟩

end Step

/-- a step, or the fault that prevents it -/
abbrev Reading (ε τ α : Type) (takes : Bool) (s : List τ) :=
  Except ε (Step τ α takes s)

namespace Reading

variable {ε τ α β : Type} {s : List τ}

/-- a value for which nothing is taken -/
def nothing (a : α) (s : List τ) : Reading ε τ α false s :=
  .ok (.nothing a s)

/-- the reading with another value -/
def map {takes : Bool} (f : α → β) : Reading ε τ α takes s → Reading ε τ β takes s
  | .error e => .error e
  | .ok step => .ok (step.map f)

/-- the reading, without saying whether it takes something -/
def loose {takes : Bool} : Reading ε τ α takes s → Reading ε τ α false s
  | .error e => .error e
  | .ok step => .ok step.loose

/-- a reading behind a first item that counts as taken -/
def behind {takes : Bool} {x : τ} {rest : List τ} : Reading ε τ α takes rest → Reading ε τ α true (x :: rest)
  | .error e => .error e
  | .ok step => .ok ((Step.first x rest).after step)

/-- read on from where a reading ends; reading on may use that no more is left than there was -/
def next {t₁ t₂ : Bool} (r : Reading ε τ α t₁ s)
    (readOn : (a : α) → (rest : List τ) → Within t₁ rest s → Reading ε τ β t₂ rest) :
    Reading ε τ β (t₁ || t₂) s :=
  match r with
  | .error e => .error e
  | .ok ⟨a, rest, within⟩ =>
    match readOn a rest within with
    | .error e => .error e
    | .ok step => .ok ((⟨a, rest, within⟩ : Step τ α t₁ s).after step)

/-- what the first item means, and that item is taken; none when it means nothing -/
def meaning? (meaning : τ → Option α) (s : List τ) : Reading ε τ (Option α) false s :=
  match s with
  | [] => nothing none []
  | x :: rest =>
    match meaning x with
    | none => nothing none (x :: rest)
    | some a => .ok ((Step.first x rest).loose.map fun _ => some a)

def behindMark? {takes : Bool} (isMark : τ → Bool) (read : (r : List τ) → Reading ε τ α takes r) (s : List τ) :
    Reading ε τ (Option α) false s :=
  match s with
  | [] => nothing none []
  | x :: rest => if isMark x then ((read rest).map some).behind.loose else nothing none (x :: rest)

/-- what stands behind each of several marks, as many as there are, in a list no longer than `bound`; reading one may
use that what it reads from is shorter -/
def behindMarks {takes : Bool} {bound : Nat} (isMark : τ → Bool)
    (read : (r : List τ) → r.length < bound → Reading ε τ α takes r) (s : List τ) (h : s.length ≤ bound) :
    Reading ε τ (List α) false s :=
  match s with
  | [] => nothing [] []
  | x :: rest =>
    if isMark x then
      ((read rest h).next fun a tail within =>
        (behindMarks isMark read tail (by cases takes <;> simp only [List.length_cons] at h <;> omega)).map
          (a :: ·)).behind.loose
    else nothing [] (x :: rest)
termination_by s.length
decreasing_by cases takes <;> simp only [List.length_cons] <;> omega

end Reading

end Rulebook
