/-
The lines of a page. A page is put together from parts with line feeds between them, so the lines of a part stand together
on the page (`feedLines_infix_lines`, `feedLines_infix_paragraphs`). The ends of sections and of the page are stripped;
lines that stand together stay, as long as the last of them holds more than white space and ends in none
(`infix_feedLines_stripRight`).

So a row of lines is carried from a section to its page (`GrammarDoc.infix_page`).
-/
import Rulebook.Proofs.Sections

namespace Rulebook

/-! ## Lines of parts -/

namespace Text

variable {t l : Text}

theorem feedLines_append_line (a b : Text) : feedLines (a ++ "\n" ++ b) = feedLines a ++ feedLines b := by
  rw [List.append_assoc]
  exact feedLines_append_lineFeed a b

theorem feedLines_append_paragraph (a b : Text) :
    feedLines (a ++ "\n\n" ++ b) = feedLines a ++ ([[]] ++ feedLines b) := by
  rw [List.append_assoc]
  exact (feedLines_append_lineFeed a _).trans (congrArg _ (feedLines_append_lineFeed [] b))

/-- a line feed at the end makes one more line, an empty one -/
theorem feedLines_behind (t : Text) : feedLines (t ++ "\n") = feedLines t ++ [[]] := by
  have happend := feedLines_append_line t []
  rwa [List.append_nil] at happend

/-- parts with line feeds between them have the lines of each, in order -/
theorem feedLines_join_lines {parts : List Text} (hne : parts ≠ []) :
    feedLines (join "\n" parts) = parts.flatMap feedLines := by
  induction parts with
  | nil => exact absurd rfl hne
  | cons p parts ih =>
    cases parts with
    | nil => simp [join]
    | cons q parts => rw [join_cons_cons, feedLines_append_line, ih (List.cons_ne_nil q parts)]; rfl

/-- the lines of parts that follow one another stand together -/
theorem infix_feedLines_lines {block : List Text} (hne : block ≠ []) (front back : List Text) :
    block.flatMap feedLines <:+: feedLines (join "\n" (front ++ (block ++ back))) := by
  have hwhole : front ++ (block ++ back) ≠ [] :=
    List.append_ne_nil_of_right_ne_nil _ (List.append_ne_nil_of_left_ne_nil hne _)
  rw [feedLines_join_lines hwhole, List.flatMap_append, List.flatMap_append]
  exact (List.prefix_append _ _).isInfix.trans (List.suffix_append _ _).isInfix

theorem feedLines_infix_lines {p : Text} {parts : List Text} (hp : p ∈ parts) :
    feedLines p <:+: feedLines (join "\n" parts) := by
  obtain ⟨front, back, rfl⟩ := List.append_of_mem hp
  simpa using infix_feedLines_lines (List.cons_ne_nil p []) front back

/-- the lines of a part stand together when blank lines stand between the parts -/
theorem feedLines_infix_paragraphs {p : Text} {parts : List Text} (hp : p ∈ parts) :
    feedLines p <:+: feedLines (join "\n\n" parts) := by
  induction parts with
  | nil => cases hp
  | cons q parts ih =>
    cases parts with
    | nil =>
      obtain rfl := List.mem_singleton.1 hp
      simp [join]
    | cons r parts =>
      rw [join_cons_cons, feedLines_append_paragraph]
      rcases List.mem_cons.1 hp with rfl | hp
      · exact (List.prefix_append _ _).isInfix
      · exact (ih hp).trans ((List.suffix_append _ _).isInfix.trans (List.suffix_append _ _).isInfix)

/-- a line is made of the text it is a line of -/
theorem subset_of_mem_feedLines (h : l ∈ feedLines t) : l ⊆ t := by
  induction t using line_induction with
  | last line hline =>
    rw [feedLines_of_notMem hline] at h
    rw [List.mem_singleton.1 h]
    exact List.Subset.refl _
  | more line rest hline ih =>
    rw [feedLines_append_lineFeed, feedLines_of_notMem hline] at h
    rcases List.mem_cons.1 h with rfl | h
    · exact List.subset_append_left _ _
    · exact List.Subset.trans (ih h) (List.subset_append_of_subset_right _ (List.subset_cons_self _ _))

/-- what is put in front of a text stands in front of its first line -/
theorem exists_front (front : Text) (hl : l ∈ feedLines t) : ∃ before, before ++ l ∈ feedLines (front ++ t) := by
  induction front using line_induction with
  | last line hline =>
    rcases line_or_more t with ht | ⟨first, rest, rfl, hfirst⟩
    · rw [feedLines_of_notMem ht] at hl
      obtain rfl := List.mem_singleton.1 hl
      have honly : CodePoint.ofChar '\n' ∉ line ++ l := List.mem_append.not.2 (not_or.2 ⟨hline, ht⟩)
      exact ⟨line, by rw [feedLines_of_notMem honly]; exact List.mem_singleton_self _⟩
    · have honly : CodePoint.ofChar '\n' ∉ line ++ first := List.mem_append.not.2 (not_or.2 ⟨hline, hfirst⟩)
      rw [feedLines_append_lineFeed, feedLines_of_notMem hfirst] at hl
      rw [← List.append_assoc, feedLines_append_lineFeed, feedLines_of_notMem honly]
      rcases List.mem_cons.1 hl with rfl | hl
      · exact ⟨line, List.mem_cons_self⟩
      · exact ⟨[], List.mem_cons_of_mem _ hl⟩
  | more line rest hline ih =>
    obtain ⟨before, hbefore⟩ := ih
    refine ⟨before, ?_⟩
    rw [List.append_assoc, List.cons_append, feedLines_append_lineFeed]
    exact List.mem_append_right _ hbefore

/-! ## Stripped ends -/

theorem stripRight_append_blank {u : Text} (hu : u.isBlank = true) (t : Text) : stripRight (t ++ u) = stripRight t := by
  have hreverse : ∀ c ∈ u.reverse, c.isBlank = true := fun c hc => List.all_eq_true.1 hu c (List.mem_reverse.1 hc)
  rw [stripRight, stripRight, List.reverse_append, List.dropWhile_append_of_pos hreverse]

section

variable {k : Text} (htrimmed : k.stripRight = k) (hblank : k.isBlank = false)

include htrimmed hblank

/-- stripping the end of a text leaves all lines up to one that is not blank and ends in no white space -/
theorem exists_feedLines_stripRight {front back : List Text} (h : feedLines t = front ++ k :: back) :
    ∃ back, feedLines t.stripRight = front ++ k :: back := by
  induction t using line_induction generalizing front with
  | last line hline =>
    rw [feedLines_of_notMem hline] at h
    obtain ⟨rfl, rfl, -⟩ : front = [] ∧ line = k ∧ back = [] := by
      cases front with
      | nil => simpa using h
      | cons f front => simp at h
    exact ⟨[], by rw [htrimmed, feedLines_of_notMem hline]; rfl⟩
  | more line rest hline ih =>
    rw [feedLines_append_lineFeed, feedLines_of_notMem hline, List.singleton_append] at h
    cases hrest : rest.isBlank with
    | true =>
      have hbehind : isBlank (CodePoint.ofChar '\n' :: rest) = true := hrest
      have hfront : front = [] := by
        by_contra hne
        obtain ⟨f, front, rfl⟩ := List.exists_cons_of_ne_nil hne
        have hk : k ∈ feedLines rest := by
          rw [(List.cons.inj h).2]
          exact List.mem_append_right _ List.mem_cons_self
        have hall : k.isBlank = true :=
          List.all_eq_true.2 fun c hc => List.all_eq_true.1 hrest c (subset_of_mem_feedLines hk hc)
        exact Bool.noConfusion (hall.symm.trans hblank)
      subst hfront
      obtain ⟨rfl, -⟩ := List.cons.inj h
      exact ⟨[], by rw [stripRight_append_blank hbehind, htrimmed, feedLines_of_notMem hline]; rfl⟩
    | false =>
      have hstrip : stripRight (line ++ CodePoint.ofChar '\n' :: rest) =
          line ++ CodePoint.ofChar '\n' :: stripRight rest := by
        have happend := stripRight_append (line ++ [CodePoint.ofChar '\n']) hrest
        simpa only [List.append_assoc, List.singleton_append] using happend
      rw [hstrip, feedLines_append_lineFeed, feedLines_of_notMem hline, List.singleton_append]
      cases front with
      | nil =>
        obtain ⟨rfl, -⟩ := List.cons.inj h
        exact ⟨_, rfl⟩
      | cons f front =>
        obtain ⟨rfl, hmore⟩ := List.cons.inj h
        obtain ⟨back, hback⟩ := ih hmore
        exact ⟨back, congrArg _ hback⟩

theorem infix_feedLines_stripRight {ls : List Text} (h : ls ++ [k] <:+: feedLines t) :
    ls ++ [k] <:+: feedLines t.stripRight := by
  obtain ⟨front, back, hlines⟩ := h
  have hsplit : feedLines t = (front ++ ls) ++ k :: back := by simpa using hlines.symm
  obtain ⟨back, hstripped⟩ := exists_feedLines_stripRight htrimmed hblank hsplit
  exact ⟨front, back, by simpa using hstripped.symm⟩

end

end Text

/-! ## From sections to pages -/

/-- a supported entry has a section -/
theorem Sections.exists_section {render : Entry → Except FormatError Text} {failed : Entry → Unsupported → Text}
    {es : List Entry} {sections : List Text} (h : Sections render failed es sections) {e : Entry} (he : e ∈ es)
    (hsupported : e.Supported) : ∃ t ∈ sections, render e = .ok t := by
  induction h with
  | nil => cases he
  | @cons f t es sections hfirst _ ih =>
    rcases List.mem_cons.1 he with rfl | he
    · exact ⟨t, List.mem_cons_self, hfirst.1 hsupported⟩
    · obtain ⟨u, hu, hrendered⟩ := ih he
      exact ⟨u, List.mem_cons_of_mem t hu, hrendered⟩

section

variable {k : Text} (htrimmed : k.stripRight = k) (hblank : k.isBlank = false) {ls : List Text}

include htrimmed hblank

/-- lines of a part stand on the page -/
theorem GrammarDoc.infix_joinParts {parts : List Text} {p : Text} (hp : p ∈ parts) (h : ls ++ [k] <:+: p.feedLines) :
    ls ++ [k] <:+: (joinParts parts).feedLines := by
  rw [joinParts, Text.feedLines_behind]
  exact (Text.infix_feedLines_stripRight htrimmed hblank (h.trans (Text.feedLines_infix_lines hp))).trans
    (List.prefix_append _ _).isInfix

/-- lines of a section stand on the page -/
theorem GrammarDoc.infix_page {sections : List Text} {t : Text} (ht : t ∈ sections) (h : ls ++ [k] <:+: t.feedLines)
    (opening : List Text) :
    ls ++ [k] <:+: (GrammarDoc.joinParts (opening ++ [GrammarDoc.joinSections sections])).feedLines := by
  refine GrammarDoc.infix_joinParts htrimmed hblank (List.mem_append_right _ (List.mem_singleton_self _)) ?_
  exact (Text.infix_feedLines_stripRight htrimmed hblank h).trans
    (Text.feedLines_infix_paragraphs (List.mem_map_of_mem ht))

end

end Rulebook
