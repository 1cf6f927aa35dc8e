/-
Text as lists of code points.

A grammar may write any code point as an escape, a lone surrogate included, so a text here is a list of code points and
not of characters. `CodePoint` keeps the bound of the code space in its type; characters and string literals coerce into
it, so rules are written with ordinary literals. Lengths and columns count code points.
-/

namespace Rulebook

/-- a Unicode code point, lone surrogates included -/
structure CodePoint where
  val : Nat
  isLt : val < 0x110000
  deriving DecidableEq, Repr

/-- a text: its code points in order -/
abbrev Text := List CodePoint

/-- comparing texts tells them apart -/
instance : LawfulBEq Text := inferInstance

namespace CodePoint

def ofChar (c : Char) : CodePoint :=
  ⟨c.toNat, by
    have h : c.toNat < 0xD800 ∨ (0xDFFF < c.toNat ∧ c.toNat < 0x110000) := c.valid
    omega⟩

instance : Coe Char CodePoint := ⟨ofChar⟩

def ofNat? (n : Nat) : Option CodePoint :=
  if h : n < 0x110000 then some ⟨n, h⟩ else none

/-- a surrogate stands for no character and has no UTF-8 form -/
def isSurrogate (c : CodePoint) : Bool :=
  decide (0xD800 ≤ c.val) && decide (c.val ≤ 0xDFFF)

/-- the code point lies in one of the ranges, ends included -/
def inRanges (ranges : List (Nat × Nat)) (c : CodePoint) : Bool :=
  ranges.any fun r => decide (r.1 ≤ c.val) && decide (c.val ≤ r.2)

end CodePoint

namespace Text

def ofString (s : String) : Text :=
  s.toList.map CodePoint.ofChar

instance : Coe String Text := ⟨ofString⟩

def ofNat (n : Nat) : Text :=
  (Nat.toDigits 10 n).map CodePoint.ofChar

def ofInt : Int → Text
  | .ofNat n => ofNat n
  | .negSucc n => CodePoint.ofChar '-' :: ofNat (n + 1)

/-- the texts one after the other, with `separator` between neighbours -/
def join (separator : Text) (parts : List Text) : Text :=
  List.intercalate separator parts

def replicate (count : Nat) (t : Text) : Text :=
  (List.replicate count t).flatten

def after? : (start : Text) → Text → Option Text
  | [], t => some t
  | _ :: _, [] => none
  | a :: as, b :: bs => if a = b then after? as bs else none

def startsWith (t start : Text) : Bool :=
  start.isPrefixOf t

def holds (part : Text) : Text → Bool
  | [] => part.isEmpty
  | c :: rest => startsWith (c :: rest) part || holds part rest

def endsWith (t stop : Text) : Bool :=
  stop.isSuffixOf t

/-- the pieces of a text between the occurrences of one code point; always at least one piece -/
def splitOn (mark : CodePoint) : Text → List Text
  | [] => [[]]
  | c :: rest =>
    if c = mark then [] :: splitOn mark rest
    else match splitOn mark rest with
      | [] => [[c]]
      | piece :: pieces => (c :: piece) :: pieces

/-- what follows the last occurrence of one code point; the whole text when there is none -/
def afterLast (mark : CodePoint) (t : Text) : Text :=
  (t.reverse.takeWhile (fun c => c ≠ mark)).reverse

/-- how often a code point occurs -/
def occurrences (c : CodePoint) (t : Text) : Nat :=
  t.count c

/-- the order of texts is by code point, position by position; a proper beginning comes first -/
def precedes : Text → Text → Bool
  | [], _ => true
  | _ :: _, [] => false
  | a :: as, b :: bs => if a.val = b.val then precedes as bs else decide (a.val < b.val)

def padLeft (width : Nat) (t : Text) : Text :=
  List.replicate (width - t.length) (CodePoint.ofChar ' ') ++ t

theorem eq_append_of_after? {start t rest : Text} (h : after? start t = some rest) : t = start ++ rest := by
  induction start generalizing t with
  | nil => simpa [after?] using h
  | cons a as ih =>
    cases t with
    | nil => simp [after?] at h
    | cons b bs =>
      simp only [after?] at h
      split at h
      · next hab => rw [ih h, hab]; rfl
      · simp at h

end Text

end Rulebook
