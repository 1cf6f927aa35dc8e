/-
What reading a comment keeps. The marks around it, a star at the front of a line and white space go, and nothing else:
the ink of a text is what is left of it without white space, and the ink of the lines between the marks, without their
stars, is the ink of the body and then, for each tag, an at sign, its name and the ink of its value.

Every step that takes something away takes blanks only, so each has one lemma that says so, and the lines fall into those
of the body and those of the tags.

- `ink_strip`, `ink_join`, `flatMap_ink_dedent`: stripping, joining and dedenting take no ink;
- `ink_tagLine`: the line of a tag is written in an at sign, its name and what stands behind it;
- `flatMap_ink_tagBlocks`: no line is lost between the body and the tags;
- `comment_keeps_ink`: the ink of a comment is that of its text and its tags.
-/
import Mathlib.Data.List.DropRight
import Rulebook.Comment.Reading
import Rulebook.Proofs.LineBreaks

namespace Rulebook

/-! ## White space -/

namespace CodePoint

variable {c : CodePoint}

theorem isBlank_of_isIndentation (h : Text.isIndentation c = true) : c.isBlank = true := by
  simp only [Text.isIndentation, Bool.or_eq_true, decide_eq_true_eq] at h
  rcases h with rfl | rfl <;> decide

/-- no range of word characters meets a range of white space -/
theorem wordRanges_apart : (wordRanges.all fun r => ([(0x09, 0x0D), (0x1C, 0x20), (0x85, 0x85), (0xA0, 0xA0),
    (0x1680, 0x1680), (0x2000, 0x200A), (0x2028, 0x2029), (0x202F, 0x202F), (0x205F, 0x205F),
    (0x3000, 0x3000)] : List (Nat × Nat)).all fun b => Nat.blt r.2 b.1 || Nat.blt b.2 r.1) = true := by
  decide +kernel

theorem not_isBlank_of_isWord (h : c.isWord = true) : c.isBlank = false := by
  simp only [isWord, inRanges, List.any_eq_true, Bool.and_eq_true, decide_eq_true_eq] at h
  obtain ⟨r, hr, hlow, hhigh⟩ := h
  rw [isBlank, inRanges, List.any_eq_false]
  intro b hb
  have hapart := List.all_eq_true.1 (List.all_eq_true.1 wordRanges_apart r hr) b hb
  simp only [Bool.or_eq_true, Nat.blt_eq] at hapart
  simp only [Bool.and_eq_true, decide_eq_true_eq]
  omega

theorem not_isBlank_of_isTagPart (h : Comment.isTagPart c = true) : c.isBlank = false := by
  simp only [Comment.isTagPart, Bool.or_eq_true, decide_eq_true_eq] at h
  rcases h with h | rfl
  · exact not_isBlank_of_isWord h
  · decide

theorem not_isBlank_of_isLetter (h : c.isLetter = true) : c.isBlank = false := by
  simp only [isLetter, isBlank, inRanges, List.any_cons, List.any_nil, Bool.or_false, Bool.or_eq_true, Bool.and_eq_true,
    decide_eq_true_eq, Bool.or_eq_false_iff, Bool.and_eq_false_iff, decide_eq_false_iff_not] at h ⊢
  omega

end CodePoint

namespace Text

variable {t u : Text}

theorem isBlank_eq_false {c : CodePoint} (hc : c ∈ t) (h : c.isBlank = false) : t.isBlank = false :=
  List.all_eq_false.2 ⟨c, hc, by simp [h]⟩

/-- what stands before a text that is not blank stays when the end is stripped -/
theorem stripRight_append (t : Text) (h : u.isBlank = false) : stripRight (t ++ u) = t ++ stripRight u := by
  have hkept : u.reverse.dropWhile CodePoint.isBlank ≠ [] := by
    intro hnil
    rw [List.dropWhile_eq_nil_iff] at hnil
    exact absurd (List.all_eq_true.2 fun c hc => hnil c (List.mem_reverse.2 hc)) (by rw [← isBlank, h]; simp)
  rw [stripRight, stripRight, List.reverse_append, List.dropWhile_append, if_neg (by simpa using hkept),
    List.reverse_append, List.reverse_reverse]

theorem stripRight_stripRight (t : Text) : stripRight (stripRight t) = stripRight t :=
  List.rdropWhile_idempotent CodePoint.isBlank t

/-! ## Ink -/

/-- what is left of a text without white space -/
def ink (t : Text) : Text := t.filter fun c => !c.isBlank

theorem ink_append (t u : Text) : ink (t ++ u) = ink t ++ ink u := List.filter_append ..

theorem ink_of_isBlank (h : t.isBlank = true) : ink t = [] := by
  rw [ink, List.filter_eq_nil_iff]
  intro c hc
  simp [List.all_eq_true.1 h c hc]

theorem ink_of_notBlank (h : ∀ c ∈ t, c.isBlank = false) : ink t = t :=
  List.filter_eq_self.2 fun c hc => by simp [h c hc]

theorem ink_cons {c : CodePoint} (h : c.isBlank = false) (t : Text) : ink (c :: t) = c :: ink t := by simp [ink, h]

theorem ink_stripLeft (t : Text) : ink (stripLeft t) = ink t := by
  have hblank : isBlank (t.takeWhile CodePoint.isBlank) = true := List.all_takeWhile
  calc ink (stripLeft t)
      = ink (t.takeWhile CodePoint.isBlank ++ stripLeft t) := by rw [ink_append, ink_of_isBlank hblank, List.nil_append]
    _ = ink t := by rw [stripLeft, List.takeWhile_append_dropWhile]

theorem ink_reverse (t : Text) : ink t.reverse = (ink t).reverse := List.filter_reverse

theorem ink_stripRight (t : Text) : ink (stripRight t) = ink t := by
  rw [stripRight, ink_reverse, ← stripLeft, ink_stripLeft, ink_reverse, List.reverse_reverse]

theorem ink_strip (t : Text) : ink (strip t) = ink t := by rw [strip, ink_stripRight, ink_stripLeft]

/-- the first of two parts or more stands in front of the others -/
theorem join_cons_cons (separator p q : Text) (parts : List Text) :
    join separator (p :: q :: parts) = p ++ separator ++ join separator (q :: parts) := by
  rw [join, List.intercalate_cons_cons, join]

theorem ink_join {separator : Text} (h : separator.isBlank = true) (parts : List Text) :
    ink (join separator parts) = parts.flatMap ink := by
  induction parts with
  | nil => rfl
  | cons p parts ih =>
    cases parts with
    | nil => simp [join]
    | cons q parts =>
      rw [join_cons_cons, ink_append, ink_append, ink_of_isBlank h, ih, List.append_nil, ← List.flatMap_cons]

/-- lines of which each has the ink of another -/
theorem flatMap_ink_congr {f : Text → Text} {ls : List Text} (h : ∀ l ∈ ls, ink (f l) = ink l) :
    (ls.map f).flatMap ink = ls.flatMap ink := by
  rw [List.flatMap_map]
  exact List.flatMap_congr h

/-- empty lines have no ink -/
theorem flatMap_ink_of_empty {ls : List Text} (h : ∀ l ∈ ls, l = []) : ls.flatMap ink = [] :=
  List.flatMap_eq_nil_iff.2 fun l hl => by rw [h l hl]; rfl

/-! ## Shared indentation -/

theorem commonStart_left (a b : Text) : commonStart a b <+: a := by
  induction a generalizing b with
  | nil => exact List.nil_prefix
  | cons c a ih =>
    cases b with
    | nil => exact List.nil_prefix
    | cons d b =>
      rw [commonStart]
      split
      · exact List.cons_prefix_cons.2 ⟨rfl, ih b⟩
      · exact List.nil_prefix

theorem commonStart_right (a b : Text) : commonStart a b <+: b := by
  induction a generalizing b with
  | nil => exact List.nil_prefix
  | cons c a ih =>
    cases b with
    | nil => exact List.nil_prefix
    | cons d b =>
      rw [commonStart]
      split
      · next h => exact List.cons_prefix_cons.2 ⟨h, ih b⟩
      · exact List.nil_prefix

/-- a margin that has been found only gets shorter -/
theorem prefix_of_foldl {step : Option Text → Text → Option Text} {own : Text → Text}
    (hfirst : ∀ l, step none l = some (own l)) (hnext : ∀ s l, step (some s) l = some (commonStart s (own l)))
    {ls : List Text} {start : Option Text} {m : Text} (h : ls.foldl step start = some m) :
    (∀ s, start = some s → m <+: s) ∧ ∀ l ∈ ls, m <+: own l := by
  induction ls generalizing start with
  | nil =>
    obtain rfl : start = some m := h
    exact ⟨fun s hs => Option.some.inj hs ▸ List.prefix_rfl, List.forall_mem_nil _⟩
  | cons l ls ih =>
    obtain ⟨hstart, hls⟩ := ih h
    cases start with
    | none =>
      refine ⟨fun s hs => ?_, List.forall_mem_cons.2 ⟨hstart _ (hfirst l), hls⟩⟩
      cases hs
    | some s =>
      have hcommon := hstart _ (hnext s l)
      refine ⟨fun s' hs => ?_, List.forall_mem_cons.2 ⟨hcommon.trans (commonStart_right ..), hls⟩⟩
      cases hs
      exact hcommon.trans (commonStart_left ..)

/-- the margin of some lines begins each of them that holds more than blanks and tabs -/
theorem margin?_prefix {ls : List Text} {m : Text} (h : margin? ls = some m) :
    ∀ l ∈ ls, l.all isIndentation = false → m <+: l.takeWhile isIndentation := by
  intro l hl hmore
  exact (prefix_of_foldl (fun _ => rfl) (fun _ _ => rfl) h).2 l (List.mem_filter.2 ⟨hl, by simp [hmore]⟩)

/-- dedenting takes some blanks and tabs from the front of each line -/
theorem exists_dedent (ls : List Text) : ∃ f : Text → Text, dedent ls = ls.map f ∧
    ∀ l ∈ ls, ∃ m : Text, l = m ++ f l ∧ m.all isIndentation = true := by
  refine ⟨_, rfl, fun l hl => ?_⟩
  by_cases hall : l.all isIndentation = true
  · exact ⟨l, by simp [hall], hall⟩
  · have hmargin : (margin? ls).getD [] <+: l.takeWhile isIndentation := by
      cases hfound : margin? ls with
      | none => exact List.nil_prefix
      | some m => exact margin?_prefix hfound l hl (by simpa using hall)
    obtain ⟨rest, hrest⟩ := hmargin.trans (List.takeWhile_prefix _)
    refine ⟨(margin? ls).getD [], ?_, ?_⟩
    · rw [if_neg hall, ← hrest, List.drop_left, hrest]
    · exact List.all_eq_true.2 fun c hc => List.all_eq_true.1 List.all_takeWhile c (hmargin.subset hc)

theorem isBlank_of_all_isIndentation (h : t.all isIndentation = true) : t.isBlank = true :=
  List.all_eq_true.2 fun c hc => CodePoint.isBlank_of_isIndentation (List.all_eq_true.1 h c hc)

theorem flatMap_ink_dedent (ls : List Text) : (dedent ls).flatMap ink = ls.flatMap ink := by
  obtain ⟨f, hf, hlines⟩ := exists_dedent ls
  rw [hf]
  refine flatMap_ink_congr fun l hl => ?_
  obtain ⟨m, hm, hblank⟩ := hlines l hl
  rw [congrArg ink hm, ink_append, ink_of_isBlank (isBlank_of_all_isIndentation hblank), List.nil_append]

end Text

namespace Comment

open Text

/-! ## Lines of a comment -/

/-- a line without everything up to its star, if that is the first thing in it that is not white space -/
def unstarred (line : Text) : Text :=
  match line.stripLeft with
  | [] => line
  | c :: rest => if c = '*' then rest else line

theorem ink_plainLine (line : Text) : ink (plainLine line) = ink (unstarred line) := by
  rw [plainLine, unstarred]
  cases hline : line.stripLeft with
  | nil => exact ink_stripRight line
  | cons c rest =>
    by_cases hstar : c = '*'
    · simp only [if_pos hstar, ink_stripRight]
      cases hafter : after? " " rest with
      | none => rfl
      | some behind =>
        have hblank : isBlank (ofString " ") = true := by decide
        rw [Option.getD_some, eq_append_of_after? hafter, ink_append, ink_of_isBlank hblank, List.nil_append]
    · simp only [if_neg hstar, ink_stripRight]

/-- the line of a tag is written in an at sign, its name and what stands behind it -/
theorem ink_tagLine {line name first : Text} (h : tagLine? line = some (name, first)) :
    ink line = CodePoint.ofChar '@' :: (name ++ ink first) := by
  unfold tagLine? at h
  split at h
  · next at_ c rest hline =>
    split at h
    · next hmarks =>
      obtain ⟨rfl, hletter⟩ := hmarks
      obtain ⟨rfl, rfl⟩ := Prod.mk.inj (Option.some.inj h)
      have hname : ink (rest.takeWhile isTagPart) = rest.takeWhile isTagPart :=
        ink_of_notBlank fun d hd =>
          CodePoint.not_isBlank_of_isTagPart (List.all_eq_true.1 List.all_takeWhile d hd)
      rw [← ink_strip line, hline, ink_cons (by decide), ink_cons (CodePoint.not_isBlank_of_isLetter hletter), ink_strip,
        List.cons_append, ← hname, ← ink_append, List.takeWhile_append_dropWhile]
    · cases h
  · cases h

/-! ## The body and the tags -/

/-- some lines are those of the body and, for each tag, its line and the lines that continue it -/
theorem flatMap_ink_tagBlocks (ls : List Text) :
    ls.flatMap ink = (bodyLines ls).flatMap ink ++
      (tagBlocks ls).flatMap fun (name, first, more) => CodePoint.ofChar '@' :: (name ++ ink first) ++ more.flatMap ink := by
  induction ls with
  | nil => rfl
  | cons l ls ih =>
    cases htag : tagLine? l with
    | none => simp [bodyLines, tagBlocks, htag, ih]
    | some tag =>
      obtain ⟨name, first⟩ := tag
      simp [bodyLines, tagBlocks, htag, ih, ink_tagLine htag]

/-- a block is the dedented lines without some empty ones at either end -/
theorem exists_block (ls : List Text) : ∃ front back : List Text, dedent ls = front ++ (block ls ++ back) ∧
    (∀ l ∈ front, l = []) ∧ ∀ l ∈ back, l = [] := by
  let kept := (dedent ls).dropWhile List.isEmpty
  have hkept : block ls = kept.rdropWhile List.isEmpty := rfl
  refine ⟨(dedent ls).takeWhile List.isEmpty, kept.rtakeWhile List.isEmpty, ?_, fun l hl => ?_, fun l hl => ?_⟩
  · rw [hkept, List.rdropWhile_append_rtakeWhile, List.takeWhile_append_dropWhile]
  · exact List.isEmpty_iff.1 (List.all_eq_true.1 List.all_takeWhile l hl)
  · exact List.isEmpty_iff.1 (List.mem_rtakeWhile_imp hl)

theorem flatMap_ink_block (ls : List Text) : (block ls).flatMap ink = ls.flatMap ink := by
  obtain ⟨front, back, hblock, hfront, hback⟩ := exists_block ls
  rw [← flatMap_ink_dedent ls, hblock, List.flatMap_append, List.flatMap_append, flatMap_ink_of_empty hfront,
    flatMap_ink_of_empty hback, List.nil_append, List.append_nil]

theorem flatMap_ink_singleBlanks (ls : List Text) : (singleBlanks ls).flatMap ink = ls.flatMap ink := by
  fun_induction singleBlanks ls with
  | case1 => rfl
  | case2 => rfl
  | case3 l m rest h ih =>
    obtain ⟨rfl, rfl⟩ := h
    rw [ih]
    rfl
  | case4 l m rest _ ih => rw [List.flatMap_cons, ih, ← List.flatMap_cons]

theorem ink_bodyText (ls : List Text) : ink (bodyText ls) = ls.flatMap ink := by
  rw [bodyText, ink_strip, ink_join (by decide), flatMap_ink_singleBlanks, flatMap_ink_block]

theorem ink_tagOf (name first : Text) (more : List Text) :
    ink (tagOf name first more).value = ink first ++ more.flatMap ink := by
  have hparts : ∀ parts : List Text, (parts.filter fun part => !part.isEmpty).flatMap ink = parts.flatMap ink := by
    intro parts
    induction parts with
    | nil => rfl
    | cons p parts ih =>
      cases p with
      | nil => exact ih
      | cons c p => simp [ih]
  rw [tagOf, ink_join (by decide), hparts, List.flatMap_cons, List.flatMap_singleton, ink_join (by decide),
    flatMap_ink_block]

/-- marks at both ends are not stripped -/
theorem strip_of_ends {c d : CodePoint} (hc : c.isBlank = false) (hd : d.isBlank = false) (t : Text) :
    strip (c :: (t ++ [d])) = c :: (t ++ [d]) := by
  have hleft : stripLeft (c :: (t ++ [d])) = c :: (t ++ [d]) := List.dropWhile_cons_of_neg (by simp [hc])
  rw [strip, hleft, stripRight]
  simp [hd]

/-- what stands between the marks of a comment -/
theorem inside_marks (b : Text) : inside ("/**" ++ b ++ "*/") = b := by
  have hstrip : strip ("/**" ++ b ++ "*/") = "/**" ++ b ++ "*/" := by
    have hends := strip_of_ends (c := CodePoint.ofChar '/') (d := CodePoint.ofChar '/') (by decide) (by decide)
      ("**" ++ b ++ "*")
    simpa [ofString] using hends
  have hopened : after? "/**" ("/**" ++ b ++ "*/") = some (b ++ "*/") := rfl
  have hclosed : endsWith (b ++ "*/") "*/" = true := List.isSuffixOf_iff_suffix.2 (List.suffix_append ..)
  have hlength : (b ++ ofString "*/").length - 2 = b.length := by simp [ofString]
  simp only [inside, hstrip, hopened, Option.some_or, Option.getD_some, hclosed, if_true, hlength, List.take_left]

/-- **A comment keeps all that is written in it**: whatever stands between its marks, the lines, without everything up to
the star that begins one, are written in the ink of the body and, for each tag in order, an at sign, its name and the ink
of its value. Nothing comes in between and nothing changes its place. -/
theorem comment_keeps_ink (b : Text) :
    (b.lines.map unstarred).flatMap ink = ink (ofRaw ("/**" ++ b ++ "*/")).text ++
      (ofRaw ("/**" ++ b ++ "*/")).tags.flatMap fun t => CodePoint.ofChar '@' :: (t.name ++ ink t.value) := by
  have hlines : (b.lines.map unstarred).flatMap ink = (plainLines ("/**" ++ b ++ "*/")).flatMap ink := by
    rw [plainLines, inside_marks, List.flatMap_map, List.flatMap_map]
    exact List.flatMap_congr fun l _ => (ink_plainLine l).symm
  rw [hlines, flatMap_ink_tagBlocks, ofRaw, ink_bodyText, List.flatMap_map]
  refine congrArg _ (List.flatMap_congr fun p _ => ?_)
  obtain ⟨name, first, more⟩ := p
  simp only [ink_tagOf, List.cons_append, List.append_assoc]
  rfl

end Comment

end Rulebook
