/-
What the escapes of a literal let through. Four hexadecimal digits behind `\u` stand for their code point, but so does
every other number that is written with four code points (`hexDigits_iff`), and where fewer than four are left `u`
stands for itself. So a literal is read alike whatever stands behind it exactly when no `\u` is that near to the end of
the text (`reads_alike_iff`). A line feed that an escape takes does not end the literal, every other one does.

- `literal_passes_lineFeed_iff`: literals and line ends;
- `unicode_escapes_of_literal`: what stands behind `\u`, and what stands behind the literal.
-/
import Rulebook.Proofs.Positions

namespace Rulebook

open Literal (Stretch)

/-! ## Line feeds -/

namespace Literal

open Stretch

/-- the stretch is an escape, and a line feed stands behind its backslash or around its number -/
def Stretch.TakesLineFeed : Stretch → Prop
  | plain _ => False
  | escape e => e = CodePoint.ofChar '\n'
  | number a b c d => CodePoint.ofChar '\n' ∈ [a, b, c, d]

variable {q : CodePoint} {behind : Text} {ss : List Stretch} {v : Text}

theorem Stretch.lineFeed_mem_text_iff {s : Stretch} (h : s.Fits q behind) :
    CodePoint.ofChar '\n' ∈ s.text ↔ s.TakesLineFeed := by
  have hbackslash : CodePoint.ofChar '\n' ≠ CodePoint.ofChar '\\' := by decide
  have hu : CodePoint.ofChar '\n' ≠ CodePoint.ofChar 'u' := by decide
  cases s with
  | plain c => simpa [text, TakesLineFeed] using h.2.2.symm
  | escape e => simp [text, TakesLineFeed, hbackslash, eq_comm]
  | number a b c d => simp [text, TakesLineFeed, hbackslash, hu]

/-- line feeds stand in the escapes of a literal only -/
theorem Runs.lineFeed_iff (h : Runs q behind ss v) :
    CodePoint.ofChar '\n' ∈ textOf ss ↔ ∃ s ∈ ss, s.TakesLineFeed := by
  induction h with
  | nil => simp
  | @cons s ss p v hfits _ _ ih => simp [s.lineFeed_mem_text_iff hfits, ih]

/-- the literal is closed before the next line feed -/
def ClosedInLine (q : CodePoint) (t : Text) : Prop :=
  ∃ ss v behind, t = textOf ss ++ q :: behind ∧ Runs q (q :: behind) ss v ∧ CodePoint.ofChar '\n' ∉ textOf ss

end Literal

/-- **A literal runs over a line end exactly where an escape takes the line feed**: the text of a literal holds a line
feed if and only if one of its escapes does; a literal that is not closed before the next line feed makes the source be
refused, or one of its escapes takes a line feed; and where the stretches of a literal lead to a line feed, the source
is refused at the opening quote. -/
theorem literal_passes_lineFeed_iff (file : Path) (source : Text) :
    (∀ pieces, Piece.cut source = .ok pieces → ∀ p ∈ pieces, ∀ v, p.token = some (.literal, v) →
      ∃ q ss behind, p.text = q :: (Stretch.textOf ss ++ [q]) ∧ Literal.Runs q (q :: behind) ss v ∧
        (CodePoint.ofChar '\n' ∈ p.text ↔ ∃ s ∈ ss, s.TakesLineFeed)) ∧
    (∀ q t, q.IsQuote → Piece.Comes source (q :: t) → ¬ Literal.ClosedInLine q t →
      (∃ e, Lexed.ofSource file source = .error e ∧ (e.cause = .openLiteral ∨ e.cause = .badEscape)) ∨
        ∃ ss v behind, t = Stretch.textOf ss ++ q :: behind ∧ Literal.Runs q (q :: behind) ss v ∧
          ∃ s ∈ ss, s.TakesLineFeed) ∧
    ∀ q t, q.IsQuote → Piece.Comes source (q :: t) → ∀ ss v behind,
      t = Stretch.textOf ss ++ CodePoint.ofChar '\n' :: behind → Literal.Runs q (CodePoint.ofChar '\n' :: behind) ss v →
        Lexed.ofSource file source =
          .error ⟨.openLiteral, Lexed.placeOf file source ⟨.openLiteral, t.length + 1⟩⟩ := by
  refine ⟨?_, ?_, ?_⟩
  · intro pieces hcut p hp v hv
    obtain ⟨q, ss, behind, hq, -, htext, hruns⟩ := Piece.runs_of_mem hcut hp hv
    refine ⟨q, ss, behind, htext, hruns, ?_⟩
    have hne : CodePoint.ofChar '\n' ≠ q := (hq.ne_ofChar (by decide)).symm
    rw [htext, ← hruns.lineFeed_iff]
    simp [hne]
  · intro q t hq hcomes hopen
    obtain ⟨ss, v, behind, r, hparted⟩ := Literal.exists_parted q t
    cases r with
    | error fault =>
      refine .inl ⟨_, hcomes.refused hq hparted file, ?_⟩
      cases fault with
      | unterminated => exact .inl rfl
      | badEscape left => exact .inr rfl
    | ok read =>
      obtain ⟨htext, hruns, hstops⟩ := hparted
      cases hstops with
      | @closed behind =>
        refine .inr ⟨ss, v, behind, htext, hruns, hruns.lineFeed_iff.1 ?_⟩
        by_contra hnone
        exact hopen ⟨ss, v, behind, htext, hruns, hnone⟩
  · intro q t hq hcomes ss v behind htext hruns
    exact hcomes.refused hq ⟨htext, hruns, .lineEnds⟩ file

/-- an escaped line feed is read, and the name behind it is taken to stand on the first line -/
theorem escaped_lineFeed_is_read : ∃ pieces p v, Piece.cut "'\\\n'b" = .ok pieces ∧ p ∈ pieces ∧
    p.token = some (.literal, v) ∧ CodePoint.ofChar '\n' ∈ p.text ∧
    Lexed.ofSource (Path.ofText "a") "'\\\n'b" = .ok ⟨[⟨.literal, "\n", 1, 1, 4⟩, ⟨.name, "b", 1, 5, 1⟩], ⟨1, 6⟩⟩ ∧
    Mark.at "'\\\n'b" 4 = ⟨2, 2⟩ := by
  have hcut : Piece.cut "'\\\n'b" = .ok [⟨"'\\\n'", some (.literal, "\n")⟩, ⟨"b", some (.name, "b")⟩] := by cbv
  exact ⟨_, _, _, hcut, List.mem_cons_self, rfl, by decide, by cbv, by decide⟩

/-! ## Numbers behind an escape -/

/-- a hexadecimal digit of the ASCII alphabet -/
def CodePoint.IsHexDigit (c : CodePoint) : Prop := c.inRanges [(0x30, 0x39), (0x41, 0x46), (0x61, 0x66)] = true

instance (c : CodePoint) : Decidable c.IsHexDigit :=
  inferInstanceAs (Decidable (c.inRanges [(0x30, 0x39), (0x41, 0x46), (0x61, 0x66)] = true))

/-- what a number in base sixteen may hold besides these digits: white space around it, a sign, underscores, the `x` of
`0x`, and decimal digits of other scripts -/
def CodePoint.IsLenient (c : CodePoint) : Prop :=
  Text.aroundNumber c = true ∨ (∃ m ∈ ['-', '+', '_', 'x', 'X'], c = CodePoint.ofChar m) ∨
    c.isDigit = true ∧ ¬ c.IsHexDigit

/-- the number that hexadecimal digits write -/
def Text.hexNumber (t : Text) : Nat := t.foldl (fun n c => 16 * n + c.hexValue?.getD 0) 0

namespace CodePoint

variable {c : CodePoint}

theorem IsHexDigit.bounds (h : c.IsHexDigit) :
    0x30 ≤ c.val ∧ c.val ≤ 0x39 ∨ 0x41 ≤ c.val ∧ c.val ≤ 0x46 ∨ 0x61 ≤ c.val ∧ c.val ≤ 0x66 := by
  simpa [IsHexDigit, inRanges] using h

theorem IsHexDigit.not_around (h : c.IsHexDigit) : ¬ Text.aroundNumber c = true := by
  have hbounds := h.bounds
  intro hblank
  simp [Text.aroundNumber, isBlank, inRanges] at hblank
  omega

theorem IsHexDigit.ne_mark (h : c.IsHexDigit) : ∀ m ∈ ['-', '+', '_', 'x', 'X'], c ≠ CodePoint.ofChar m := by
  have hnone : ∀ m ∈ ['-', '+', '_', 'x', 'X'], ¬ (CodePoint.ofChar m).IsHexDigit := by
    simp [IsHexDigit, inRanges, CodePoint.ofChar]
  intro m hm heq
  exact hnone m hm (heq ▸ h)

/-- nothing lenient is a digit of the ASCII alphabet -/
theorem IsHexDigit.not_lenient (h : c.IsHexDigit) : ¬ c.IsLenient := by
  rintro (hblank | ⟨m, hm, heq⟩ | ⟨-, hnone⟩)
  · exact h.not_around hblank
  · exact h.ne_mark m hm heq
  · exact hnone h

/-- what is neither a digit nor lenient is foreign to numbers -/
theorem foreign_of_not (hdigit : ¬ c.IsHexDigit) (hlenient : ¬ c.IsLenient) : c.Foreign := by
  simp only [IsLenient, not_or, not_exists, not_and, not_not] at hlenient
  obtain ⟨hblank, hmark, hother⟩ := hlenient
  have hnone : c.digitValue? = none := by
    by_contra hsome
    exact hdigit (hother (Option.isSome_iff_ne_none.2 hsome))
  have hletter : ¬ c.inRanges [(0x61, 0x66)] = true ∧ ¬ c.inRanges [(0x41, 0x46)] = true := by
    simp only [IsHexDigit, inRanges, List.any_cons, List.any_nil, Bool.or_false, Bool.or_eq_true, not_or] at hdigit ⊢
    exact ⟨hdigit.2.2, hdigit.2.1⟩
  exact ⟨by rw [hexValue?, if_neg hletter.1, if_neg hletter.2, hnone], hnone, Bool.eq_false_iff.2 hblank, hmark⟩

/-- a digit has a value below sixteen -/
theorem IsHexDigit.value (h : c.IsHexDigit) : ∃ v, c.hexValue? = some v ∧ v < 16 := by
  unfold hexValue?
  split
  · next hsmall =>
    have hrange : 0x61 ≤ c.val ∧ c.val ≤ 0x66 := by simpa [inRanges] using hsmall
    exact ⟨_, rfl, by omega⟩
  · next hsmall =>
    split
    · next hcapital =>
      have hrange : 0x41 ≤ c.val ∧ c.val ≤ 0x46 := by simpa [inRanges] using hcapital
      exact ⟨_, rfl, by omega⟩
    · next hcapital =>
      have hrange : 0x30 ≤ c.val ∧ c.val ≤ 0x39 := by
        have hbounds := h.bounds
        simp [inRanges] at hsmall hcapital
        omega
      refine ⟨c.val - 0x30, ?_, by omega⟩
      rw [digitValue?, digitZeros, List.find?_cons_of_pos (by simpa using hrange), Option.map_some]

end CodePoint

namespace Text

variable {a b c d : CodePoint}

/-- four digits are read as their number, which some code point has -/
theorem unsigned16?_of_hexDigits (h : ∀ x ∈ [a, b, c, d], x.IsHexDigit) :
    unsigned16? [a, b, c, d] = some (hexNumber [a, b, c, d]) ∧ hexNumber [a, b, c, d] < 0x110000 := by
  obtain ⟨va, hva, hla⟩ := (h a (by simp)).value
  obtain ⟨vb, hvb, hlb⟩ := (h b (by simp)).value
  obtain ⟨vc, hvc, hlc⟩ := (h c (by simp)).value
  obtain ⟨vd, hvd, hld⟩ := (h d (by simp)).value
  have hnumber : hexNumber [a, b, c, d] = 16 * (16 * (16 * va + vb) + vc) + vd := by
    simp [hexNumber, hva, hvb, hvc, hvd]
  have hx : ¬ (a.digitValue? = some 0 ∧ (b = CodePoint.ofChar 'x' ∨ b = CodePoint.ofChar 'X')) := by
    rintro ⟨-, hx | hx⟩
    · exact (h b (by simp)).ne_mark 'x' (by decide) hx
    · exact (h b (by simp)).ne_mark 'X' (by decide) hx
  refine ⟨?_, by omega⟩
  rw [unsigned16?, if_neg hx, hnumber]
  simp [magnitude16?, digits16?, hva, hvb, hvc, hvd]

/-- nothing is stripped from around digits, and none of them is a sign -/
theorem number16?_of_hexDigits (ha : a.IsHexDigit) (hd : d.IsHexDigit) {n : Nat}
    (h : unsigned16? [a, b, c, d] = some n) : number16? [a, b, c, d] = some (n : Int) := by
  have hfront : [a, b, c, d].dropWhile aroundNumber = [a, b, c, d] := List.dropWhile_cons_of_neg ha.not_around
  have hback : [d, c, b, a].dropWhile aroundNumber = [d, c, b, a] := List.dropWhile_cons_of_neg hd.not_around
  have hreverse : [a, b, c, d].reverse = [d, c, b, a] := rfl
  have hreverse' : [d, c, b, a].reverse = [a, b, c, d] := rfl
  rw [number16?, hfront, hreverse, hback, hreverse']
  simp only
  rw [if_neg (ha.ne_mark '-' (by decide)), if_neg (ha.ne_mark '+' (by decide)), h]
  rfl

/-- four digits name the code point with their number -/
theorem escapedPoint?_of_hexDigits (h : ∀ x ∈ [a, b, c, d], x.IsHexDigit) :
    ∃ p, escapedPoint? [a, b, c, d] = some p ∧ p.val = hexNumber [a, b, c, d] := by
  obtain ⟨hunsigned, hbound⟩ := unsigned16?_of_hexDigits h
  refine ⟨⟨hexNumber [a, b, c, d], hbound⟩, ?_, rfl⟩
  rw [escapedPoint?, number16?_of_hexDigits (h a (by simp)) (h d (by simp)) hunsigned, Option.bind_some,
    if_neg (by omega), Int.toNat_natCast, CodePoint.ofNat?, dif_pos hbound]

/-- four code points that name one are all digits, or one of them is lenient -/
theorem hexDigits_iff {p : CodePoint} (h : escapedPoint? [a, b, c, d] = some p) :
    (∀ x ∈ [a, b, c, d], x.IsHexDigit) ↔ ∀ x ∈ [a, b, c, d], ¬ x.IsLenient := by
  refine ⟨fun hdigits x hx => (hdigits x hx).not_lenient, fun hnone x hx => ?_⟩
  by_contra hdigit
  simp [escapedPoint?_of_foreign (CodePoint.foreign_of_not hdigit (hnone x hx)) hx] at h

end Text

/-! ## What stands behind a literal -/

namespace Literal

open Stretch

variable {q : CodePoint} {behind : Text} {ss : List Stretch} {v : Text}

/-- only an escape that is cut short by the end of the text depends on what stands behind it -/
theorem Stretch.Fits.anywhere {s : Stretch} (h : s.Fits q behind) (hs : s ≠ escape (CodePoint.ofChar 'u'))
    (behind' : Text) : s.Fits q behind' := by
  cases s with
  | plain c => exact h
  | escape e => exact fun he => absurd (congrArg escape he) hs
  | number a b c d => trivial

theorem Runs.anywhere (h : Runs q behind ss v) (hss : escape (CodePoint.ofChar 'u') ∉ ss) (behind' : Text) :
    Runs q behind' ss v := by
  induction h with
  | nil => exact .nil
  | cons hfits hp _ ih =>
    obtain ⟨hs, hmore⟩ := not_or.1 (mt List.mem_cons.2 hss)
    exact .cons (hfits.anywhere (Ne.symm hs) _) hp (ih hmore)

/-- with enough behind the literal, the first escape that was cut short by the end of the text runs over the closing
quote -/
theorem Runs.refused_before (hq : q.IsQuote) (h : Runs q (q :: behind) ss v) (hss : escape (CodePoint.ofChar 'u') ∈ ss)
    (behind' : Text) (hlong : 4 ≤ behind'.length) :
    ∃ left, read q (textOf ss ++ q :: behind') = .error (.badEscape left) := by
  induction h with
  | nil => cases hss
  | @cons s ss p v hfits hp _ ih =>
    rw [textOf_cons, List.append_assoc]
    by_cases hs : s = escape (CodePoint.ofChar 'u')
    · subst hs
      exact read_over_quote hq (hfits rfl) (by simp only [List.length_append, List.length_cons]; omega)
    · obtain ⟨left, hleft⟩ := ih ((List.mem_cons.1 hss).resolve_left (Ne.symm hs))
      refine ⟨left, ?_⟩
      rw [read_of_fits (hfits.anywhere hs _) hp, hleft]
      rfl

/-- a literal is read alike whatever stands behind it exactly when none of its escapes was cut short -/
theorem Runs.reads_alike_iff (hq : q.IsQuote) (h : Runs q (q :: behind) ss v) :
    (∀ behind', read q (textOf ss ++ q :: behind') = .ok (v, (textOf ss).length + 1)) ↔
      escape (CodePoint.ofChar 'u') ∉ ss := by
  refine ⟨fun halike hss => ?_, fun hss behind' => ?_⟩
  · obtain ⟨left, hleft⟩ := h.refused_before hq hss (List.replicate 4 q) (by simp)
    cases hleft.symm.trans (halike _)
  · rw [read_of_runs (h.anywhere hss _), Stops.read_eq hq .closed, pushAll, List.append_nil, Nat.add_comm]

/-- what is true of the escapes of a literal that is met in a source, behind its opening quote -/
structure Escapes (file : Path) (source : Text) (q : CodePoint) (t : Text) (ss : List Stretch) (v behind : Text)
    (outcome : Except Fault (Text × Nat)) : Prop where
  /-- these are its stretches, and where they end -/
  parted : Parted q t ss v behind outcome
  /-- four digits stand for the code point with their number -/
  digits : ∀ a b c d, number a b c d ∈ ss → (∀ x ∈ [a, b, c, d], x.IsHexDigit) →
    ∃ p, (number a b c d).point? = some p ∧ p.val = Text.hexNumber [a, b, c, d]
  /-- what is read as a number consists of digits, or it holds something lenient -/
  strict_iff : ∀ a b c d, number a b c d ∈ ss →
    ((∀ x ∈ [a, b, c, d], x.IsHexDigit) ↔ ∀ x ∈ [a, b, c, d], ¬ x.IsLenient)
  /-- what is no number is not four digits, and the source is refused at the escape -/
  refused : ∀ a b c d more, behind = CodePoint.ofChar '\\' :: CodePoint.ofChar 'u' :: a :: b :: c :: d :: more →
    (∃ x ∈ [a, b, c, d], ¬ x.IsHexDigit) ∧
      Lexed.ofSource file source = .error ⟨.badEscape, Lexed.placeOf file source ⟨.badEscape, behind.length⟩⟩
  /-- what stands behind the literal does not matter, unless `u` stands for itself right before the end of the text -/
  alike_iff : ∀ more, behind = q :: more →
    ((∀ more', read q (textOf ss ++ q :: more') = .ok (v, (textOf ss).length + 1)) ↔
      escape (CodePoint.ofChar 'u') ∉ ss)

end Literal

/-- **Behind `\u` stand four digits or another number, or the source is refused**: the escapes of every literal that is
met in a source are as `Literal.Escapes` says. So the escapes of a literal are strict exactly when no number among them
holds anything lenient and none is cut short by the end of the text, and only the latter makes a literal depend on what
stands behind it. -/
theorem unicode_escapes_of_literal {source t : Text} {q : CodePoint} (hq : q.IsQuote)
    (hcomes : Piece.Comes source (q :: t)) (file : Path) :
    ∃ ss v behind outcome, Literal.Escapes file source q t ss v behind outcome := by
  obtain ⟨ss, v, behind, r, hparted⟩ := Literal.exists_parted q t
  refine ⟨ss, v, behind, r, hparted, ?_, ?_, ?_, ?_⟩
  · exact fun a b c d _ hdigits => Text.escapedPoint?_of_hexDigits hdigits
  · intro a b c d hmem
    obtain ⟨p, hp⟩ := hparted.runs.exists_point _ hmem
    exact Text.hexDigits_iff hp
  · rintro a b c d more rfl
    have hescape : q ≠ CodePoint.ofChar '\\' := hq.ne_ofChar (by decide)
    cases hparted.stops with
    | closed => exact absurd rfl hescape
    | noNumber hnone =>
      refine ⟨?_, hcomes.refused hq hparted file⟩
      by_contra hdigits
      obtain ⟨p, hp, -⟩ := Text.escapedPoint?_of_hexDigits (a := a) (b := b) (c := c) (d := d) (by simpa using hdigits)
      cases hnone.symm.trans hp
  · rintro more rfl
    exact hparted.runs.reads_alike_iff hq

/-- four digits are read as their code point -/
theorem capital_is_escaped : CodePoint.IsQuote '\'' ∧ Piece.Comes "'\\u0041'" "'\\u0041'" ∧
    ∃ ss v behind outcome, Literal.Escapes (Path.ofText "a") "'\\u0041'" '\'' "\\u0041'" ss v behind outcome :=
  ⟨.inl rfl, .here, unicode_escapes_of_literal (.inl rfl) .here (Path.ofText "a")⟩

/-- blanks around two digits are read as a number, and a `u` at the end of the text stands for itself; with more behind
it the same literal is refused -/
theorem blanks_name_a_capital :
    Lexed.ofSource (Path.ofText "a") "'\\u 41 '" = .ok ⟨[⟨.literal, "A", 1, 1, 8⟩], ⟨1, 9⟩⟩ ∧
      ¬ CodePoint.IsHexDigit ' ' ∧
      Lexed.ofSource (Path.ofText "a") "'\\u'" = .ok ⟨[⟨.literal, "u", 1, 1, 4⟩], ⟨1, 5⟩⟩ ∧
      ∃ e, Lexed.ofSource (Path.ofText "a") "'\\u';  " = .error e ∧ e.cause = .badEscape :=
  ⟨by cbv, by decide, by cbv, _, by cbv, rfl⟩

end Rulebook
