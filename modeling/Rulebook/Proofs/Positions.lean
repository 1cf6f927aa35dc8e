/-
Where the tokens of a text stand. A stretch of a text that is cut off as one piece is a `Lexeme`: a token, or something
between tokens. The tokens cover the text but for gaps of such stretches (`Covers`), and each stands at the line and
column that are counted from the beginning of the text (`Mark.at`).

The positions are kept while walking over the pieces, and a literal moves the column only. So they are right as long as
no literal runs over a line end.

- `lexeme_of_first`: what one piece can be;
- `covers_of_cut`: the walk over the pieces, for a text with something before it;
- `tokens_cover_source`: both for a whole text.
-/
import Rulebook.Proofs.Pieces

namespace Rulebook

/-! ## Lexemes -/

/-- a stretch of a text and the token it makes, none between tokens, in front of what stands behind it -/
inductive Lexeme (behind : Text) : Text → Option Key → Prop where
  | blank {c : CodePoint} : c = ' ' ∨ c = '\t' ∨ c = '\r' ∨ c = '\n' → Lexeme behind [c] none
  | lineComment {body : Text} : CodePoint.ofChar '\n' ∉ body → (∀ c ∈ behind.head?, c = CodePoint.ofChar '\n') →
    Lexeme behind ("//" ++ body) none
  | blockComment {body : Text} : ¬ Text.ofString "*/" <:+: body ++ "*" → body.head? ≠ some (CodePoint.ofChar '*') →
    Lexeme behind ("/*" ++ body ++ "*/") none
  | headComment {body : Text} : ¬ Text.ofString "*/" <:+: body ++ "*" → body.head? = some (CodePoint.ofChar '*') →
    Lexeme behind ("/*" ++ body ++ "*/") (some (.headComment, "/*" ++ body ++ "*/"))
  | literal {q : CodePoint} {body value : Text} : q.IsQuote →
    Literal.read q (body ++ q :: behind) = .ok (value, body.length + 1) →
    Lexeme behind (q :: (body ++ [q])) (some (.literal, value))
  | number {digits : Text} : digits ≠ [] → (∀ c ∈ digits, c.isDigit = true) →
    Lexeme behind digits (some (.number, digits))
  | name {n : Text} : IsIdentifier n → Lexeme behind n (some (.name, n))
  | caretName {n : Text} : IsIdentifier n → Lexeme behind ("^" ++ n) (some (.name, n))
  | symbol (s : Symbol) : Lexeme behind s.spelling (some (.symbol s, s.spelling))

theorem Lexeme.ne_nil {behind lexeme : Text} {token : Option Key} (h : Lexeme behind lexeme token) : lexeme ≠ [] := by
  cases h with
  | blank _ => simp
  | lineComment _ _ => exact List.cons_ne_nil _ _
  | blockComment _ _ => exact List.cons_ne_nil _ _
  | headComment _ _ => exact List.cons_ne_nil _ _
  | literal _ _ => simp
  | number hne _ => exact hne
  | name hn => cases hn; simp
  | caretName _ => exact List.cons_ne_nil _ _
  | symbol s => cases s <;> exact List.cons_ne_nil _ _

namespace Piece

/-- a block comment goes up to the first place where it can end -/
theorem body_of_commentLength? {t : Text} {n : Nat} (h : commentLength? t = some n) :
    ∃ body rest, t = body ++ "*/" ++ rest ∧ n = body.length + 2 ∧ ¬ Text.ofString "*/" <:+: body ++ "*" := by
  fun_induction commentLength? t generalizing n with
  | case1 => cases h
  | case2 => cases h
  | case3 c d rest hclose =>
    cases h
    obtain ⟨rfl, rfl⟩ := hclose
    exact ⟨[], rest, rfl, rfl, by decide⟩
  | case4 c d rest hopen ih =>
    obtain ⟨m, hm, rfl⟩ := Option.map_eq_some_iff.1 h
    obtain ⟨body, behind, hbody, rfl, hearly⟩ := ih hm
    refine ⟨c :: body, behind, by rw [hbody]; rfl, by rw [List.length_cons], ?_⟩
    rw [List.cons_append, List.infix_cons_iff, not_or]
    refine ⟨fun hprefix => hopen ?_, hearly⟩
    -- the end would begin one code point earlier
    obtain ⟨hc, hslash⟩ : CodePoint.ofChar '*' = c ∧ [CodePoint.ofChar '/'] <+: body ++ "*" :=
      List.cons_prefix_cons.1 hprefix
    cases body with
    | nil => exact absurd hslash (by decide)
    | cons e body =>
      obtain rfl : d = e := (List.cons.inj hbody).1
      exact ⟨hc.symm, (List.cons_prefix_cons.1 hslash).1.symm⟩

theorem headComment?_comment (body : Text) :
    headComment? ("/*" ++ body ++ "*/") =
      if body.head? = some (CodePoint.ofChar '*') then some (.headComment, "/*" ++ body ++ "*/") else none := by
  unfold headComment?
  cases body with
  | nil => rfl
  | cons c body =>
    have hlong : ("/*" ++ (c :: body) ++ "*/" : Text) ≠ Text.ofString "/**/" := by
      intro h
      simpa [Text.ofString] using congrArg List.length h
    have hstart : Text.startsWith ("/*" ++ (c :: body) ++ "*/") "/**" = true ↔ c = CodePoint.ofChar '*' := by
      rw [Text.startsWith, List.isPrefixOf_iff_prefix]
      exact ⟨fun h => by simpa [Text.ofString, eq_comm] using h, fun h => by simp [h, Text.ofString]⟩
    simp only [Bool.and_eq_true, hstart, decide_eq_true hlong, and_true, List.head?_cons, Option.some.injEq]

/-- a text up to where a class of code points goes on no further, and what is behind -/
theorem take_takeWhile (p : CodePoint → Bool) (t : Text) :
    t.take (t.takeWhile p).length = t.takeWhile p ∧ (∀ c ∈ t.takeWhile p, p c = true) ∧
      ∀ c ∈ (t.drop (t.takeWhile p).length).head?, p c = false := by
  have htake := (List.prefix_iff_eq_take.1 (List.takeWhile_prefix (l := t) p)).symm
  have hsplit : t.takeWhile p ++ t.drop (t.takeWhile p).length = t := by
    conv_rhs => rw [← List.take_append_drop (t.takeWhile p).length t, htake]
  exact ⟨htake, forall_of_takeWhile (by rw [hsplit])⟩

theorem lexeme_of_name? {c : CodePoint} {rest value : Text} {n : Nat} (h : name? c rest = some (value, n))
    (behind : Text) : Lexeme behind (c :: rest.take n) (some (.name, value)) := by
  have hidentifier := isIdentifier_of_name? h
  unfold name? at h
  split at h
  · next hcaret =>
    split at h
    · cases h
    · split at h
      · cases h
        rw [List.take_succ_cons, (take_takeWhile ..).1, hcaret]
        exact .caretName hidentifier
      · cases h
  · split at h
    · cases h
      rw [(take_takeWhile ..).1]
      exact .name hidentifier
    · cases h

/-- a line comment goes up to the next line feed -/
theorem lexeme_of_line {rest : Text} (h : rest.head? = some (CodePoint.ofChar '/')) :
    let n := (rest.takeWhile fun d : CodePoint => decide (d ≠ CodePoint.ofChar '\n')).length
    Lexeme (rest.drop n) (CodePoint.ofChar '/' :: rest.take n) none := by
  obtain ⟨more, rfl⟩ := List.head?_eq_some_iff.1 h
  have hslash : decide (CodePoint.ofChar '/' ≠ CodePoint.ofChar '\n') = true := by decide
  obtain ⟨htake, hbody, hbehind⟩ := take_takeWhile (fun d : CodePoint => decide (d ≠ CodePoint.ofChar '\n')) more
  simp only [List.takeWhile_cons, if_pos hslash, List.length_cons, List.take_succ_cons, List.drop_succ_cons, htake]
  exact .lineComment (fun hmem => by simpa using hbody _ hmem) fun d hd => by simpa using hbehind d hd

/-- a block comment goes up to its closing mark, and it is a token if a second star follows the opening one -/
theorem lexeme_of_block {rest : Text} {m : Nat} (h : rest.head? = some (CodePoint.ofChar '*'))
    (hm : commentLength? (rest.drop 1) = some m) :
    Lexeme (rest.drop (m + 1)) (CodePoint.ofChar '/' :: rest.take (m + 1))
      (headComment? (CodePoint.ofChar '/' :: rest.take (m + 1))) := by
  obtain ⟨more, rfl⟩ := List.head?_eq_some_iff.1 h
  obtain ⟨body, behind, hbody, rfl, hearly⟩ := body_of_commentLength? hm
  obtain rfl : more = body ++ "*/" ++ behind := hbody
  have hlength : (body ++ "*/" : Text).length = body.length + 2 := by simp [Text.ofString]
  have htext : CodePoint.ofChar '/' ::
      (CodePoint.ofChar '*' :: (body ++ "*/" ++ behind)).take (body.length + 2 + 1) = "/*" ++ body ++ "*/" := by
    rw [List.take_succ_cons, ← hlength, List.take_left]
    rfl
  rw [htext, headComment?_comment]
  split
  · next hstar => exact .headComment hearly hstar
  · next hstar => exact .blockComment hearly hstar

/-- a literal goes up to its closing quote -/
theorem lexeme_of_literal {q : CodePoint} {rest value : Text} {n : Nat} (hq : q.IsQuote)
    (h : Literal.read q rest = .ok (value, n)) : Lexeme (rest.drop n) (q :: rest.take n) (some (.literal, value)) := by
  obtain ⟨body, behind, rfl, rfl⟩ := Literal.closed_of_read hq h
  have htake : (body ++ q :: behind).take (body.length + 1) = body ++ [q] := by simp [List.take_append]
  have hdrop : (body ++ q :: behind).drop (body.length + 1) = behind := by simp [List.drop_append]
  rw [htake, hdrop]
  exact .literal hq h

theorem lexeme_of_symbol? {c : CodePoint} {rest : Text} {s : Symbol} (h : symbol? c rest = some s) (behind : Text) :
    Lexeme behind (c :: rest.take (s.spelling.length - 1)) (some (.symbol s, s.spelling)) := by
  have hstart : Text.startsWith (c :: rest) s.spelling = true := by simpa using List.find?_some h
  have htake := List.prefix_iff_eq_take.1 (List.isPrefixOf_iff_prefix.1 hstart)
  obtain ⟨d, more, hspelling⟩ : ∃ d more, s.spelling = d :: more := by cases s <;> exact ⟨_, _, rfl⟩
  have htext : c :: rest.take (s.spelling.length - 1) = s.spelling := by
    rw [hspelling] at htake ⊢
    exact htake.symm
  rw [htext]
  exact .symbol s

/-- a piece is a lexeme -/
theorem lexeme_of_first {c : CodePoint} {rest : Text} {token : Option Key} {n : Nat}
    (h : first c rest = .ok (token, n)) : Lexeme (rest.drop n) (c :: rest.take n) token := by
  unfold first at h
  split at h
  · next hgap =>
    cases h
    exact .blank (by simpa [isGap, or_assoc] using hgap)
  split at h
  · next hline =>
    cases h
    rw [hline.1]
    exact lexeme_of_line hline.2
  split at h
  · next hblock =>
    split at h
    · cases h
    · next hm =>
      cases h
      rw [hblock.1]
      exact lexeme_of_block hblock.2 hm
  split at h
  · next hquote =>
    split at h
    · next hread =>
      cases h
      exact lexeme_of_literal hquote hread
    · cases h
    · cases h
  split at h
  · next hdigit =>
    cases h
    obtain ⟨htake, hdigits, -⟩ := take_takeWhile CodePoint.isDigit rest
    rw [htake]
    exact .number (List.cons_ne_nil _ _) (List.forall_mem_cons.2 ⟨hdigit, hdigits⟩)
  split at h
  · next hname =>
    cases h
    exact lexeme_of_name? hname _
  · split at h
    · next hsymbol =>
      cases h
      exact lexeme_of_symbol? hsymbol _
    · cases h

theorem le_length_of_name? {c : CodePoint} {rest value : Text} {n : Nat} (h : name? c rest = some (value, n)) :
    n ≤ rest.length := by
  unfold name? at h
  split at h
  · split at h
    · cases h
    · split at h
      · cases h
        exact Nat.succ_le_succ (List.takeWhile_prefix _).length_le
      · cases h
  · split at h
    · cases h
      exact (List.takeWhile_prefix _).length_le
    · cases h

/-- a piece reaches no further than the text does -/
theorem le_length_of_first {c : CodePoint} {rest : Text} {token : Option Key} {n : Nat}
    (h : first c rest = .ok (token, n)) : n ≤ rest.length := by
  unfold first at h
  split at h
  · cases h
    exact Nat.zero_le _
  split at h
  · cases h
    exact (List.takeWhile_prefix _).length_le
  split at h
  · split at h
    · cases h
    · next hm =>
      cases h
      obtain ⟨body, behind, hbody, rfl, -⟩ := body_of_commentLength? hm
      have hlength := congrArg List.length hbody
      simp [Text.ofString] at hlength
      omega
  split at h
  · next hquote =>
    split at h
    · next hread =>
      cases h
      obtain ⟨body, behind, rfl, rfl⟩ := Literal.closed_of_read hquote hread
      simp
    · cases h
    · cases h
  split at h
  · cases h
    exact (List.takeWhile_prefix _).length_le
  split at h
  · next hname =>
    cases h
    exact le_length_of_name? hname
  · split at h
    · next s hsymbol =>
      cases h
      have hstart : Text.startsWith (c :: rest) s.spelling = true := by simpa using List.find?_some hsymbol
      have hlength := (List.isPrefixOf_iff_prefix.1 hstart).length_le
      rw [List.length_cons] at hlength
      omega
    · cases h

end Piece

/-! ## Positions -/

/-- the position of the code point at an offset: line feeds before it, and code points behind the last of them -/
def Mark.at (source : Text) (offset : Nat) : Mark :=
  let before := source.take offset
  ⟨1 + Text.occurrences (CodePoint.ofChar '\n') before, 1 + (Text.afterLast '\n' before).length⟩

theorem Mark.after_append (m : Mark) (t u : Text) : m.after (t ++ u) = (m.after t).after u := List.foldl_append

/-- walking over a text counts its lines and the code points of the last one -/
theorem Mark.after_start (t : Text) :
    Mark.start.after t = ⟨1 + Text.occurrences (CodePoint.ofChar '\n') t, 1 + (Text.afterLast '\n' t).length⟩ := by
  induction t using List.reverseRecOn with
  | nil => rfl
  | append_singleton t c ih =>
    have hlast : ∀ mark : CodePoint, Text.afterLast mark (t ++ [c]) =
        if c = mark then [] else Text.afterLast mark t ++ [c] := by
      intro mark
      rw [Text.afterLast, List.reverse_append, List.reverse_singleton, List.singleton_append, List.takeWhile_cons]
      by_cases hc : c = mark <;> simp [hc, Text.afterLast]
    rw [Mark.after_append, ih, Mark.after, List.foldl_cons, List.foldl_nil, Mark.step, hlast, Text.occurrences,
      Text.occurrences, List.count_append, List.count_singleton]
    by_cases hc : c = CodePoint.ofChar '\n' <;> simp [hc] <;> omega

/-- a text without line feeds moves the column only -/
theorem Mark.after_of_notMem {t : Text} (h : CodePoint.ofChar '\n' ∉ t) (m : Mark) :
    m.after t = ⟨m.line, m.column + t.length⟩ := by
  induction t generalizing m with
  | nil => rfl
  | cons c t ih =>
    obtain ⟨hc, ht⟩ : CodePoint.ofChar '\n' ≠ c ∧ CodePoint.ofChar '\n' ∉ t := by simpa using h
    rw [Mark.after, List.foldl_cons, ← Mark.after, Mark.step, if_neg (Ne.symm hc), ih ht, List.length_cons]
    simp only [Mark.mk.injEq, true_and]
    omega

/-- no literal runs over a line end -/
def Piece.InLine (p : Piece) : Prop := ∀ value, p.token = some (.literal, value) → CodePoint.ofChar '\n' ∉ p.text

theorem Mark.afterPiece_of_inLine {p : Piece} (h : p.InLine) (m : Mark) : m.afterPiece p = m.after p.text := by
  unfold Mark.afterPiece
  split
  · next value hvalue => exact (Mark.after_of_notMem (h value hvalue) m).symm
  · rfl

/-! ## Tokens over a text -/

/-- blanks and comments in front of `behind` -/
inductive Gap (behind : Text) : Text → Prop where
  | nil : Gap behind []
  | more {lexeme gap : Text} : Lexeme (gap ++ behind) lexeme none → Gap behind gap → Gap behind (lexeme ++ gap)

/-- the token stands at an offset of the source: its position is counted from the beginning, and it is as long as the
stretch that is cut off there -/
structure Token.StandsAt (t : Token) (source : Text) (start : Nat) : Prop where
  position : (⟨t.line, t.column⟩ : Mark) = Mark.at source start
  lexeme : ∃ lexeme behind, source.drop start = lexeme ++ behind ∧ t.length = lexeme.length ∧
    Lexeme behind lexeme (some (t.kind, t.value))

/-- the tokens stand at these offsets, and between them, from `offset` to the end of the source, are gaps only -/
inductive Covers (source : Text) : Nat → List Token → List Nat → Prop where
  | stop {offset : Nat} : Gap [] (source.drop offset) → Covers source offset [] []
  | token {offset start : Nat} {t : Token} {ts : List Token} {starts : List Nat} : offset ≤ start →
    Gap (source.drop start) ((source.drop offset).take (start - offset)) → t.StandsAt source start →
    Covers source (start + t.length) ts starts → Covers source offset (t :: ts) (start :: starts)

namespace Covers

variable {source : Text} {offset : Nat} {ts : List Token} {starts : List Nat}

theorem length_eq (h : Covers source offset ts starts) : starts.length = ts.length := by
  induction h with
  | stop _ => rfl
  | token _ _ _ _ ih => simp [ih]

/-- the offsets go on from where the walk began, and no two are the same -/
theorem increasing (h : Covers source offset ts starts) : (∀ s ∈ starts, offset ≤ s) ∧ starts.Pairwise (· < ·) := by
  induction h with
  | stop _ => exact ⟨List.forall_mem_nil _, .nil⟩
  | @token offset start t ts starts hle _ hstands _ ih =>
    obtain ⟨lexeme, behind, -, hlength, hlexeme⟩ := hstands.lexeme
    have hpos : 0 < t.length := hlength ▸ List.length_pos_of_ne_nil hlexeme.ne_nil
    have hmore : ∀ s ∈ starts, start < s := by
      intro s hs
      have hbehind := ih.1 s hs
      omega
    exact ⟨List.forall_mem_cons.2 ⟨hle, fun s hs => hle.trans (hmore s hs).le⟩, .cons hmore ih.2⟩

/-- what stands between tokens joins the gap in front of the next one -/
theorem behind_gap {before lexeme rest : Text} (hlexeme : Lexeme rest lexeme none)
    (h : Covers (before ++ (lexeme ++ rest)) (before ++ lexeme).length ts starts) :
    Covers (before ++ (lexeme ++ rest)) before.length ts starts := by
  have hrest : (before ++ (lexeme ++ rest)).drop (before ++ lexeme).length = rest := by
    rw [← List.append_assoc, List.drop_left]
  cases h with
  | stop hgap =>
    refine .stop ?_
    rw [hrest] at hgap
    rw [List.drop_left]
    exact .more (by rwa [List.append_nil]) hgap
  | @token _ start t ts starts hle hgap hstands hmore =>
    obtain ⟨k, rfl⟩ := Nat.exists_eq_add_of_le hle
    have hdrop : (before ++ (lexeme ++ rest)).drop ((before ++ lexeme).length + k) = rest.drop k := by
      rw [← List.drop_drop, hrest]
    have hlength : (before ++ lexeme).length + k - before.length = lexeme.length + k := by
      rw [List.length_append]
      omega
    have htake : ((before ++ (lexeme ++ rest)).drop before.length).take
        ((before ++ lexeme).length + k - before.length) = lexeme ++ rest.take k := by
      rw [List.drop_left, hlength, List.take_length_add_append]
    rw [hrest, Nat.add_sub_cancel_left, hdrop] at hgap
    refine .token (by rw [List.length_append]; omega) ?_ hstands hmore
    rw [htake, hdrop]
    exact .more (by rwa [List.take_append_drop]) hgap

end Covers

/-- the walk over the pieces of a text with something before it -/
theorem covers_of_cut (before : Text) {rest : Text} {pieces : List Piece} (h : Piece.cut rest = .ok pieces)
    (hline : ∀ p ∈ pieces, p.InLine) :
    let lexed := Lexed.ofPieces (Mark.start.after before) pieces
    lexed.stop = Mark.start.after (before ++ rest) ∧
      ∃ starts, Covers (before ++ rest) before.length lexed.tokens starts := by
  -- what was before grows by one lexeme, so the offset where it ends is the offset of the next one
  fun_induction Piece.cut rest generalizing before pieces with
  | case1 =>
    cases h
    refine ⟨by rw [List.append_nil]; rfl, [], .stop ?_⟩
    rw [List.append_nil, List.drop_length]
    exact .nil
  | case2 => cases h
  | case3 => cases h
  | case4 c rest token n hfirst more hmore ih =>
    cases h
    obtain ⟨hhere, hbehind⟩ := List.forall_mem_cons.1 hline
    have hlexeme := Piece.lexeme_of_first hfirst
    have htext : c :: rest = (c :: rest.take n) ++ rest.drop n := by rw [List.cons_append, List.take_append_drop]
    have hmark : (Mark.start.after before).afterPiece ⟨c :: rest.take n, token⟩ =
        Mark.start.after (before ++ (c :: rest.take n)) := by
      rw [Mark.afterPiece_of_inLine hhere, Mark.after_append]
    obtain ⟨hstop, starts, hcovers⟩ := ih (before ++ (c :: rest.take n)) hmore hbehind
    rw [List.append_assoc, ← htext] at hstop hcovers
    rw [Lexed.ofPieces, hmark]
    cases token with
    | none =>
      -- no token: the lexeme is put in front of the gap that the tokens behind it begin with
      refine ⟨hstop, starts, ?_⟩
      rw [htext] at hcovers ⊢
      exact hcovers.behind_gap hlexeme
    | some k =>
      have hposition : Mark.start.after before = Mark.at (before ++ c :: rest) before.length := by
        rw [Mark.at, List.take_left, Mark.after_start]
      refine ⟨hstop, before.length :: starts, .token (Nat.le_refl _) ?_
        ⟨hposition, c :: rest.take n, rest.drop n, ?_, rfl, hlexeme⟩ ?_⟩
      · rw [Nat.sub_self]
        exact .nil
      · rw [List.drop_left, htext]
      · rwa [List.length_append] at hcovers

/-- **Positions are exact and the tokens cover the source**: in every text that is cut into tokens and in which no
literal runs over a line end, each token stands at the line and column where its lexeme begins, the lexemes follow one
another with only blanks and comments between them, and the last position is that of the end of the text. -/
theorem tokens_cover_source {file : Path} {source : Text} {lexed : Lexed} (h : Lexed.ofSource file source = .ok lexed)
    (hline : ∀ pieces, Piece.cut source = .ok pieces → ∀ p ∈ pieces, p.InLine) :
    ∃ starts : List Nat, starts.length = lexed.tokens.length ∧ starts.Pairwise (· < ·) ∧
      Covers source 0 lexed.tokens starts ∧ lexed.stop = Mark.at source source.length := by
  obtain ⟨pieces, hcut, rfl⟩ := Lexed.ofSource_eq_ok_iff.1 h
  obtain ⟨hstop, starts, hcovers⟩ := covers_of_cut [] hcut (hline pieces hcut)
  refine ⟨starts, hcovers.length_eq, hcovers.increasing.2, hcovers, hstop.trans ?_⟩
  rw [Mark.at, List.take_length, List.nil_append, Mark.after_start]

/-- a name with a caret behind a line comment, a literal, and a block comment of two lines before a head comment -/
def spreadText : Text := "// a\n ^b\r\n'c'/* \n */ /** d */"

/-- comments move lines and columns of what stands behind them, a caret is part of the name's length only -/
theorem spread_tokens_stand : ∃ lexed : Lexed,
    Lexed.ofSource (Path.ofText "a") spreadText = .ok lexed ∧
      (∀ pieces, Piece.cut spreadText = .ok pieces → ∀ p ∈ pieces, p.InLine) ∧
      lexed.tokens = [⟨.name, "b", 2, 2, 2⟩, ⟨.literal, "c", 3, 1, 3⟩, ⟨.headComment, "/** d */", 4, 5, 8⟩] ∧
      ∃ starts : List Nat, starts.length = lexed.tokens.length ∧ starts.Pairwise (· < ·) ∧
        Covers spreadText 0 lexed.tokens starts ∧ lexed.stop = Mark.at spreadText spreadText.length := by
  have hlexed : Lexed.ofSource (Path.ofText "a") spreadText =
      .ok ⟨[⟨.name, "b", 2, 2, 2⟩, ⟨.literal, "c", 3, 1, 3⟩, ⟨.headComment, "/** d */", 4, 5, 8⟩], ⟨4, 13⟩⟩ := by cbv
  have hcut : Piece.cut spreadText = .ok [⟨"// a", none⟩, ⟨"\n", none⟩, ⟨" ", none⟩, ⟨"^b", some (.name, "b")⟩,
      ⟨"\r", none⟩, ⟨"\n", none⟩, ⟨"'c'", some (.literal, "c")⟩, ⟨"/* \n */", none⟩, ⟨" ", none⟩,
      ⟨"/** d */", some (.headComment, "/** d */")⟩] := by cbv
  have hline : ∀ pieces, Piece.cut spreadText = .ok pieces → ∀ p ∈ pieces, p.InLine := by
    intro pieces hpieces
    cases hcut.symm.trans hpieces
    simpa [Piece.InLine] using (by decide : CodePoint.ofChar '\n' ∉ Text.ofString "'c'")
  exact ⟨_, hlexed, hline, rfl, tokens_cover_source hlexed hline⟩

/-! ## Literals in a source -/

namespace Literal

/-- what is complained about in a source that breaks off a literal; `left` counts from its opening quote to the end -/
def Fault.inSource (left : Nat) : Fault → Piece.Fault
  | .unterminated => ⟨.openLiteral, left⟩
  | .badEscape left => ⟨.badEscape, left⟩

end Literal

namespace Piece

open Literal (Stretch)

/-- cutting a source comes to the beginning of `t`, which is the rest of the source there -/
inductive Comes : Text → Text → Prop where
  | here {t : Text} : Comes t t
  | behind {c : CodePoint} {rest t : Text} {token : Option Key} {n : Nat} : first c rest = .ok (token, n) →
    Comes (rest.drop n) t → Comes (c :: rest) t

variable {source t : Text} {q : CodePoint}

/-- what cannot be cut from where cutting comes to cannot be cut from the beginning, for the same reason -/
theorem Comes.cut_error (h : Comes source t) {fault : Fault} (hcut : cut t = .error fault) :
    cut source = .error fault := by
  induction h with
  | here => exact hcut
  | behind hfirst _ ih =>
    rw [cut]
    simp only [hfirst, ih hcut]

/-- cutting comes to every piece that a source is cut into -/
theorem comes_of_mem {pieces : List Piece} (h : cut source = .ok pieces) {p : Piece} (hp : p ∈ pieces) :
    ∃ c rest n, Comes source (c :: rest) ∧ first c rest = .ok (p.token, n) ∧ p.text = c :: rest.take n := by
  fun_induction cut source generalizing pieces with
  | case1 => cases h; cases hp
  | case2 => cases h
  | case3 => cases h
  | case4 c rest token n hfirst more hmore ih =>
    cases h
    rcases List.mem_cons.1 hp with rfl | hp
    · exact ⟨c, rest, n, .here, hfirst, rfl⟩
    · obtain ⟨d, behind, m, hcomes, hpiece⟩ := ih hmore hp
      exact ⟨d, behind, m, .behind hfirst hcomes, hpiece⟩

/-- a quote begins a literal, or the literal is refused -/
theorem first_of_quote (hq : q.IsQuote) (t : Text) :
    first q t = match Literal.read q t with
      | .ok (value, n) => .ok (some (.literal, value), n)
      | .error fault => .error (fault.inSource (t.length + 1)) := by
  have hgap : isGap q = false := by rcases hq with rfl | rfl <;> decide
  have hslash : q ≠ CodePoint.ofChar '/' := hq.ne_ofChar (by decide)
  unfold first
  rw [if_neg (by simp [hgap]), if_neg (fun h => hslash h.1), if_neg (fun h => hslash h.1),
    if_pos (show q = CodePoint.ofChar '\'' ∨ q = CodePoint.ofChar '"' from hq)]
  rcases Literal.read q t with (_ | left) | ⟨value, n⟩ <;> rfl

/-- a source in which a literal comes to a bad end is refused there -/
theorem Comes.refused (hq : q.IsQuote) (h : Comes source (q :: t)) {ss : List Literal.Stretch} {value behind : Text}
    {fault : Literal.Fault} (hparted : Literal.Parted q t ss value behind (.error fault)) (file : Path) :
    Lexed.ofSource file source = .error ⟨(fault.inSource (t.length + 1)).cause,
      Lexed.placeOf file source (fault.inSource (t.length + 1))⟩ := by
  have hfirst : first q t = .error (fault.inSource (t.length + 1)) := by
    rw [first_of_quote hq, hparted.read_eq hq]
    rfl
  have hcut : cut (q :: t) = .error (fault.inSource (t.length + 1)) := by
    rw [cut]
    simp only [hfirst]
  rw [Lexed.ofSource, h.cut_error hcut]

/-- a literal of a source is the text of its stretches between its quotes -/
theorem runs_of_mem {pieces : List Piece} (h : cut source = .ok pieces) {p : Piece} (hp : p ∈ pieces) {value : Text}
    (hvalue : p.token = some (.literal, value)) :
    ∃ q ss behind, q.IsQuote ∧ Comes source (q :: (Stretch.textOf ss ++ q :: behind)) ∧
      p.text = q :: (Stretch.textOf ss ++ [q]) ∧ Literal.Runs q (q :: behind) ss value := by
  obtain ⟨c, rest, n, hcomes, hfirst, htext⟩ := comes_of_mem h hp
  have hlexeme := lexeme_of_first hfirst
  rw [hvalue] at hlexeme
  have hwhole : c :: rest = (c :: rest.take n) ++ rest.drop n := by rw [List.cons_append, List.take_append_drop]
  rw [hwhole] at hcomes
  -- of all lexemes only a literal makes such a token
  generalize c :: rest.take n = lexeme at hlexeme htext hcomes
  generalize rest.drop n = behind at hlexeme hcomes
  cases hlexeme with
  | @literal q body _ hq hread =>
    obtain ⟨ss, behind', hbody, hruns, hlength⟩ := Literal.runs_of_read hq hread
    obtain ⟨rfl, hbehind⟩ := List.append_inj hbody (by omega)
    obtain rfl : behind = behind' := (List.cons.inj hbehind).2
    exact ⟨q, ss, behind, hq, by simpa using hcomes, htext, hruns⟩

end Piece

end Rulebook
