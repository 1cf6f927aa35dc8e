/-
A keyword in quotes, inside any text. Its quoting is given code point by code point; here it is shown to be the same as
five replacements, each of them over the whole text that the one before it left. What a replacement puts in holds
backslashes, quotes and letters of its own, and none of the replacements behind it takes these up.

A literal is read from where its opening quote stands, with everything before it and behind it in place. Reading is by
`Literal.readAt`, which is what cutting a source does at a quote (`first_eq_literal_iff`).

  quoteKeyword_eq_inTurn   quoting is the five replacements, between two quotes
  quoted_reads_back        reading at a quoted keyword gives the keyword and stops behind it
-/
import Rulebook.Proofs.Positions

namespace Rulebook

/-! ## One replacement after the other -/

def Text.replaceAll (old : CodePoint) (new : Text) (t : Text) : Text :=
  t.flatMap fun c => if c = old then new else [c]

/-- replacements in turn, each over all that the one before it left -/
def Text.inTurn (passes : List (CodePoint × Text)) (t : Text) : Text :=
  passes.foldl (fun t pass => Text.replaceAll pass.1 pass.2 t) t

/-- what quoting a keyword replaces; the backslash comes first, for all the others put in backslashes -/
def keywordPasses : List (CodePoint × Text) :=
  [('\\', "\\\\"), ('\'', "\\'"), ('\n', "\\n"), ('\r', "\\r"), ('\t', "\\t")]

theorem Text.inTurn_append (passes : List (CodePoint × Text)) (t u : Text) :
    Text.inTurn passes (t ++ u) = Text.inTurn passes t ++ Text.inTurn passes u := by
  induction passes generalizing t u with
  | nil => rfl
  | cons pass passes ih =>
    have hstep : Text.replaceAll pass.1 pass.2 (t ++ u) =
        Text.replaceAll pass.1 pass.2 t ++ Text.replaceAll pass.1 pass.2 u := List.flatMap_append
    calc Text.inTurn (pass :: passes) (t ++ u)
        = Text.inTurn passes (Text.replaceAll pass.1 pass.2 (t ++ u)) := rfl
      _ = Text.inTurn passes (Text.replaceAll pass.1 pass.2 t) ++
            Text.inTurn passes (Text.replaceAll pass.1 pass.2 u) := by rw [hstep, ih]

/-- what one code point becomes is not changed by a replacement that comes later -/
theorem inTurn_point (c : CodePoint) : Text.inTurn keywordPasses [c] = keywordPoint c := by
  by_cases hpass : c ∈ keywordPasses.map Prod.fst
  · simp only [keywordPasses, List.map_cons, List.map_nil, List.mem_cons, List.not_mem_nil, or_false] at hpass
    rcases hpass with rfl | rfl | rfl | rfl | rfl <;> decide
  · simp only [keywordPasses, List.map_cons, List.map_nil, List.mem_cons, List.not_mem_nil, or_false, not_or] at hpass
    simp [Text.inTurn, keywordPasses, Text.replaceAll, keywordPoint, hpass]

/-- quoting code point by code point is replacing in turn -/
theorem inTurn_keyword (value : Text) : Text.inTurn keywordPasses value = value.flatMap keywordPoint := by
  induction value with
  | nil => rfl
  | cons c value ih =>
    calc Text.inTurn keywordPasses (c :: value)
        = Text.inTurn keywordPasses [c] ++ Text.inTurn keywordPasses value := Text.inTurn_append _ [c] value
      _ = (c :: value).flatMap keywordPoint := by rw [inTurn_point, ih, List.flatMap_cons]

theorem quoteKeyword_eq_inTurn (value : Text) :
    quoteKeyword value = Text.ofString "'" ++ Text.inTurn keywordPasses value ++ Text.ofString "'" := by
  rw [inTurn_keyword, quoteKeyword]

/-! ## Reading where a quote stands -/

/-- the literal whose opening quote stands at an offset of a source: its value, and the offset behind its closing
quote -/
def Literal.readAt (source : Text) (start : Nat) : Except Literal.Fault (Text × Nat) :=
  match source.drop start with
  | [] => .error .unterminated
  | quote :: rest => (Literal.read quote rest).map fun literal => (literal.1, start + 1 + literal.2)

theorem Literal.readAt_append (before : Text) (quote : CodePoint) (rest : Text) :
    Literal.readAt (before ++ quote :: rest) before.length =
      (Literal.read quote rest).map fun literal => (literal.1, before.length + 1 + literal.2) := by
  rw [Literal.readAt, List.drop_left]

/-- cutting a source at a quote finds the literal that is read there -/
theorem first_eq_literal_iff {quote : CodePoint} (hquote : quote.IsQuote) (before rest value : Text) (n : Nat) :
    Piece.first quote rest = .ok (some (.literal, value), n) ↔
      Literal.readAt (before ++ quote :: rest) before.length = .ok (value, before.length + 1 + n) := by
  have hfirst : Piece.first quote rest = .ok (some (.literal, value), n) ↔
      Literal.read quote rest = .ok (value, n) := by
    rw [Piece.first_of_quote hquote]
    cases Literal.read quote rest with
    | error fault => cases fault <;> simp
    | ok literal => simp [Prod.ext_iff]
  rw [hfirst, Literal.readAt_append]
  cases Literal.read quote rest with
  | error fault => simp [Except.map]
  | ok literal => simp [Except.map, Prod.ext_iff]

/-- **Quoting a keyword and reading a literal are inverse.** A quoted keyword is the keyword with backslashes, quotes,
line feeds, returns and tabs replaced one after the other, between two quotes. Wherever it stands in a text, and
whatever the keyword holds, reading the literal that begins there gives the keyword, and ends where its quoting ends. -/
theorem quoted_reads_back (value before behind : Text) :
    quoteKeyword value = Text.ofString "'" ++ Text.inTurn keywordPasses value ++ Text.ofString "'" ∧
      Literal.readAt (before ++ quoteKeyword value ++ behind) before.length =
        .ok (value, before.length + (quoteKeyword value).length) := by
  refine ⟨quoteKeyword_eq_inTurn value, ?_⟩
  have hshape : before ++ quoteKeyword value ++ behind =
      before ++ CodePoint.ofChar '\'' :: (value.flatMap keywordPoint ++ CodePoint.ofChar '\'' :: behind) := by
    simp [quoteKeyword, Text.ofString]
  have hlength : (quoteKeyword value).length = 1 + ((value.flatMap keywordPoint).length + 1) := by
    simp only [quoteKeyword, Text.ofString, List.length_append, List.length_map]
    simp
    omega
  rw [hshape, Literal.readAt_append, read_quoted, hlength, ← Nat.add_assoc]
  rfl

end Rulebook
