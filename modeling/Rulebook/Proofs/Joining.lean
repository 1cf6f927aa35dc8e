/-
Sources one below the other. Between two sources that are cut into tokens stands a line feed; then the whole is cut into
the tokens of the first and those of the second, further down by as many lines as the first one has.

In front of a line feed every piece ends that ends at the end of a text: names, numbers and symbols do not go on, and
neither does a line comment (`cut_append_lineFeed`). Only a literal may look further. A `u` behind a backslash stands for
itself at the very end of a text, and asks for four code points anywhere else, so the first source holds none.

Positions are counted from where a text begins. Moving the beginning down moves every token down by as much
(`ofPieces_down`), and a text that begins behind a line feed begins in the first column.

  ofSource_append_lineFeed   the tokens of two sources one below the other
-/
import Rulebook.Proofs.Escapes

namespace Rulebook

/-! ## Pieces in front of a line feed -/

namespace Literal

open Stretch

variable {q : CodePoint} {t v : Text} {n : Nat}

/-- where no `u` stands behind a backslash, a literal is read alike whatever stands behind the text -/
theorem read_append_of_no_number (hq : q.IsQuote) (h : read q t = .ok (v, n)) (hu : ¬ Text.ofString "\\u" <:+: t)
    (behind : Text) : read q (t ++ behind) = .ok (v, n) := by
  obtain ⟨ss, more, rfl, hruns, rfl⟩ := runs_of_read hq h
  have hss : escape (CodePoint.ofChar 'u') ∉ ss := by
    intro hmem
    obtain ⟨before, later, rfl⟩ := List.append_of_mem hmem
    refine hu ⟨textOf before, textOf later ++ q :: more, ?_⟩
    simp [textOf, Stretch.text, Text.ofString]
  rw [List.append_assoc, List.cons_append]
  exact (hruns.reads_alike_iff hq).2 hss (more ++ behind)

end Literal

namespace Piece

theorem plain_lineFeed (t : Text) : Plain (CodePoint.ofChar '\n' :: t) := by
  refine ⟨fun c hc => ?_, fun c hc => ?_⟩
  · obtain rfl : CodePoint.ofChar '\n' = c := by simpa using hc
    decide
  · obtain rfl : CodePoint.ofChar '\n' = c := by simpa using hc
    decide

/-- what ends at the end of a text ends in front of a line feed -/
theorem seam_lineFeed (token : Option Key) (t : Text) : Seam token [] (CodePoint.ofChar '\n' :: t) where
  before := ⟨nofun, nofun⟩
  after := plain_lineFeed t
  line := by
    intro _ d hd
    exact (Option.some.inj hd).symm
  name := by
    intro _ _ d hd
    obtain rfl : CodePoint.ofChar '\n' = d := Option.some.inj hd
    decide

theorem first_append_lineFeed {c : CodePoint} {s : Text} {token : Option Key} {n : Nat}
    (h : first c s = .ok (token, n)) (hu : ¬ Text.ofString "\\u" <:+: s) (t : Text) :
    first c (s ++ CodePoint.ofChar '\n' :: t) = .ok (token, n) := by
  have hend : first c (s ++ []) = .ok (token, n) := by rwa [List.append_nil]
  rcases first_append hend (le_length_of_first h) fun _ => seam_lineFeed token t with hsame | ⟨-, hquote, -⟩
  · exact hsame
  · -- a literal, which reads alike
    rw [first_of_quote hquote] at h ⊢
    cases hread : Literal.read c s with
    | error fault =>
      rw [hread] at h
      cases h
    | ok literal =>
      rw [hread] at h
      rw [Literal.read_append_of_no_number hquote hread hu]
      exact h

/-- a source with a line feed and another source behind it -/
theorem cut_append_lineFeed {s t : Text} {ps ts : List Piece} (hs : cut s = .ok ps) (hu : ¬ Text.ofString "\\u" <:+: s)
    (ht : cut t = .ok ts) :
    cut (s ++ CodePoint.ofChar '\n' :: t) = .ok (ps ++ ⟨[CodePoint.ofChar '\n'], none⟩ :: ts) := by
  fun_induction cut s generalizing ps with
  | case1 =>
    cases hs
    have hfeed : first (CodePoint.ofChar '\n') t = .ok (none, 0) := rfl
    exact cut_cons hfeed ht
  | case2 => cases hs
  | case3 => cases hs
  | case4 c rest token n hfirst more hmore ih =>
    cases hs
    have hrest : ¬ Text.ofString "\\u" <:+: rest := fun h => hu (h.trans (List.suffix_cons c rest).isInfix)
    have hbehind : ¬ Text.ofString "\\u" <:+: rest.drop n := fun h => hrest (h.trans (List.drop_suffix n rest).isInfix)
    have hlength := le_length_of_first hfirst
    have hwhole := cut_cons (first_append_lineFeed hfirst hrest t)
      (by rw [List.drop_append_of_le_length hlength]; exact ih hmore hbehind)
    rwa [List.take_append_of_le_length hlength] at hwhole

end Piece

/-! ## Further down -/

/-- the position as many lines further down -/
def Mark.down (lines : Nat) (m : Mark) : Mark := ⟨m.line + lines, m.column⟩

/-- the token as many lines further down; its kind, value, column and length stay -/
def Token.down (lines : Nat) (t : Token) : Token := { t with line := t.line + lines }

def Lexed.down (lines : Nat) (l : Lexed) : Lexed := ⟨l.tokens.map (Token.down lines), l.stop.down lines⟩

variable (k : Nat) (m : Mark)

theorem Mark.step_down (c : CodePoint) : (m.down k).step c = (m.step c).down k := by
  unfold Mark.step
  split
  · simp only [Mark.down, Mark.mk.injEq, and_true]
    omega
  · rfl

theorem Mark.after_down (t : Text) : (m.down k).after t = (m.after t).down k := by
  induction t generalizing m with
  | nil => rfl
  | cons c t ih =>
    calc (m.down k).after (c :: t) = ((m.down k).step c).after t := rfl
      _ = ((m.step c).down k).after t := by rw [Mark.step_down]
      _ = (m.after (c :: t)).down k := ih (m.step c)

theorem Mark.afterPiece_down (p : Piece) : (m.down k).afterPiece p = (m.afterPiece p).down k := by
  unfold Mark.afterPiece
  split
  · rfl
  · exact Mark.after_down k m p.text

/-- pieces that begin further down stand further down, all of them by as much -/
theorem Lexed.ofPieces_down (ps : List Piece) : Lexed.ofPieces (m.down k) ps = (Lexed.ofPieces m ps).down k := by
  induction ps generalizing m with
  | nil => rfl
  | cons p ps ih =>
    simp only [Lexed.ofPieces, Mark.afterPiece_down, ih]
    cases p.token with
    | none => rfl
    | some key => rfl

/-- behind a line feed a text begins as many lines further down as there are up to the line feed -/
theorem Mark.afterPiece_lineFeed (m : Mark) :
    m.afterPiece ⟨[CodePoint.ofChar '\n'], none⟩ = Mark.start.down m.line := by
  simp only [Mark.afterPiece, Mark.after, List.foldl_cons, List.foldl_nil, Mark.step, if_true, Mark.start, Mark.down]
  rw [Nat.add_comm]

theorem Lexed.all_down (l : Lexed) : (l.down k).all = l.all.map (Token.down k) := by
  rw [Lexed.all, Lexed.all, List.map_append]
  rfl

/-- **Tokenizing goes line by line**: two sources that are cut into tokens are cut into tokens one below the other, as
long as no `u` stands behind a backslash in the first. The tokens are those of the first without its end, and then
those of the second, its end included, each of them further down by the line where the first one ends. -/
theorem ofSource_append_lineFeed {file : Path} {s t : Text} {first second : Lexed}
    (hs : Lexed.ofSource file s = .ok first) (ht : Lexed.ofSource file t = .ok second)
    (hu : ¬ Text.ofString "\\u" <:+: s) :
    ∃ both, Lexed.ofSource file (s ++ Text.ofString "\n" ++ t) = .ok both ∧
      both.all = first.tokens ++ second.all.map (Token.down first.stopToken.line) := by
  obtain ⟨ps, hps, rfl⟩ := Lexed.ofSource_eq_ok_iff.1 hs
  obtain ⟨ts, hts, rfl⟩ := Lexed.ofSource_eq_ok_iff.1 ht
  have hcut : Piece.cut (s ++ Text.ofString "\n" ++ t) = .ok (ps ++ ⟨[CodePoint.ofChar '\n'], none⟩ :: ts) := by
    rw [List.append_assoc]
    exact Piece.cut_append_lineFeed hps hu hts
  refine ⟨_, Lexed.ofSource_eq_ok_iff.2 ⟨_, hcut, rfl⟩, ?_⟩
  generalize hstop : (Lexed.ofPieces Mark.start ps).stop = m
  have hbehind : Lexed.ofPieces m (⟨[CodePoint.ofChar '\n'], none⟩ :: ts) =
      (Lexed.ofPieces Mark.start ts).down m.line := by
    rw [← Lexed.ofPieces_down, ← Mark.afterPiece_lineFeed, Lexed.ofPieces]
  calc (Lexed.ofPieces Mark.start (ps ++ ⟨[CodePoint.ofChar '\n'], none⟩ :: ts)).all
      = (Lexed.ofPieces Mark.start ps).tokens ++ (Lexed.ofPieces m (⟨[CodePoint.ofChar '\n'], none⟩ :: ts)).all := by
        rw [Lexed.all, Lexed.stopToken, Lexed.ofPieces_append, Lexed.stop_ofPieces_append, hstop, List.append_assoc]
        rfl
    _ = (Lexed.ofPieces Mark.start ps).tokens ++
          (Lexed.ofPieces Mark.start ts).all.map (Token.down (Lexed.ofPieces Mark.start ps).stopToken.line) := by
        rw [hbehind, Lexed.all_down, Lexed.stopToken, hstop]

/-- a source that ends inside a line comment, and below it one with a head comment of two lines -/
theorem below_line_comment : ∃ both : Lexed,
    Lexed.ofSource "a" (Text.ofString "b\n c // d" ++ Text.ofString "\n" ++ Text.ofString "/** e\n */ 'f'") = .ok both ∧
      both.all = [⟨.name, "b", 1, 1, 1⟩, ⟨.name, "c", 2, 2, 1⟩, ⟨.headComment, "/** e\n */", 3, 1, 9⟩,
        ⟨.literal, "f", 4, 5, 3⟩, ⟨.stop, [], 4, 8, 0⟩] := by
  have hfirst : Lexed.ofSource "a" (Text.ofString "b\n c // d") =
      .ok ⟨[⟨.name, "b", 1, 1, 1⟩, ⟨.name, "c", 2, 2, 1⟩], ⟨2, 8⟩⟩ := by cbv
  have hsecond : Lexed.ofSource "a" (Text.ofString "/** e\n */ 'f'") =
      .ok ⟨[⟨.headComment, "/** e\n */", 1, 1, 9⟩, ⟨.literal, "f", 2, 5, 3⟩], ⟨2, 8⟩⟩ := by cbv
  exact ofSource_append_lineFeed hfirst hsecond (by decide)

-- at the end of a text the escape is cut short, with more lines below it the escape is none
example : Piece.cut "'\\u'" = .ok [⟨"'\\u'", some (.literal, "u")⟩] ∧
    Piece.cut "'\\u'\nabc" = .error ⟨.badEscape, 7⟩ := by
  constructor
  · cbv
  · cbv

end Rulebook
