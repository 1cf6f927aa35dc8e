/-
Anchors of headings. The slug of a heading is its lower-case text with everything dropped but small letters, digits,
underscores and hyphens. A slug that is taken gets a number behind a hyphen, the first free one counted for that slug;
the headings that every page has are taken from the start.
-/
import Rulebook.Document.Basic
import Rulebook.Text.Casing

namespace Rulebook

def CodePoint.isSlugPart (c : CodePoint) : Bool :=
  c.inRanges [(0x61, 0x7A), (0x30, 0x39)] || c = '_' || c = '-'

def slug (heading : Text) : Text :=
  (Text.lowerAfter [] heading).filter CodePoint.isSlugPart

/-- the slugs taken on a page, each with the last number given to it -/
abbrev Slugs := List (Text × Nat)

namespace Slugs

/-- the headings ahead of the rules -/
def ofPage : Slugs := [(Text.ofString "contents", 0), (Text.ofString "rules", 0)]

def taken (s : Slugs) (t : Text) : Bool :=
  (s.lookup t).isSome

def numbered (base : Text) (n : Nat) : Text :=
  base ++ "-" ++ Text.ofNat n

/-- the first number after `last` that makes a free slug; one of the next numbers does, one more than are taken -/
def freeNumber (s : Slugs) (base : Text) (last : Nat) : Nat :=
  ((List.range' (last + 1) (s.length + 1)).find? fun n => !s.taken (numbered base n)).getD (last + s.length + 1)

/-- the last number given to a slug becomes `n` -/
def count (s : Slugs) (base : Text) (n : Nat) : Slugs :=
  s.map fun (t, last) => if t = base then (t, n) else (t, last)

/-- the anchor of a slug, and the slugs taken with it -/
def claim (s : Slugs) (base : Text) : Text × Slugs :=
  match s.lookup base with
  | none => (base, s ++ [(base, 0)])
  | some last =>
    let n := s.freeNumber base last
    (numbered base n, s.count base n ++ [(numbered base n, 0)])

/-- anchors for some slugs, one after the other -/
def claimAll (s : Slugs) : List Text → List Text
  | [] => []
  | base :: more =>
    let (anchor, s) := s.claim base
    anchor :: claimAll s more

end Slugs

def Mapping.anchors (m : Mapping) : List Text :=
  Slugs.ofPage.claimAll (m.docs.map fun d => slug d.name)

def Mapping.anchor (m : Mapping) (id : RuleId) : Text :=
  (((m.map Prod.fst).zip m.anchors).lookup id).getD []

end Rulebook
