/-
The text of a comment is written as a comment again. What is read is in a normal form: no white space at its ends or at
the end of a line, no two blank lines in a row. `Paragraphs` says so of its lines, and that none of them starts a tag.

A raw comment gives such lines (`exists_paragraphs`), whatever stands in it: lines are taken from its own lines with white
space gone at both ends, so none of them is a tag, and the blank ones are thinned out. Such lines, each behind a star of
its own, give themselves (`ofRaw_asComment`): the star and the blank behind it go, the first line has no indentation to
share, and no blank line goes missing.

- `Tidy`: lines without breaks and without white space at their ends;
- `comment_text_is_normal`: the text of a comment is in normal form and is read from its own lines again.
-/
import Rulebook.Proofs.Ink

namespace Rulebook

/-! ## Tidy lines -/

namespace Text

/-- a line without breaks in it and without white space at its end -/
structure Tidy (l : Text) : Prop where
  plain : ∀ c ∈ l, c.isLineBreak = false
  trimmed : l.stripRight = l

namespace Tidy

variable {l m r : Text}

theorem nil : Tidy [] := ⟨List.forall_mem_nil _, rfl⟩

/-- only the end of a line has to be free of white space -/
theorem behind (h : Tidy (m ++ r)) : Tidy r := by
  refine ⟨fun c hc => h.plain c (List.mem_append_right _ hc), List.rdropWhile_eq_self_iff.2 fun hne => ?_⟩
  have hlast := List.rdropWhile_eq_self_iff.1 h.trimmed (List.append_ne_nil_of_right_ne_nil m hne)
  rwa [List.getLast_append_of_ne_nil _ hne] at hlast

theorem eq_nil (h : Tidy l) (hblank : l.isBlank = true) : l = [] := by
  rw [← h.trimmed]
  exact List.rdropWhile_eq_nil_iff.2 (List.all_eq_true.1 hblank)

theorem isBlank_eq_false (h : Tidy l) (hne : l ≠ []) : l.isBlank = false :=
  Bool.eq_false_iff.2 fun hblank => hne (h.eq_nil hblank)

theorem stripLeft (h : Tidy l) : Tidy l.stripLeft := by
  rw [← List.takeWhile_append_dropWhile (p := CodePoint.isBlank) (l := l)] at h
  exact h.behind

theorem lineFeed_notMem (h : Tidy l) : CodePoint.ofChar '\n' ∉ l := fun hmem =>
  Bool.false_ne_true ((h.plain _ hmem).symm.trans lineFeed_isLineBreak)

end Tidy

theorem stripRight_subset (t : Text) : stripRight t ⊆ t := (List.rdropWhile_prefix _ t).subset

/-- a line that is stripped at its end is tidy when no break stands in it -/
theorem tidy_stripRight {l : Text} (h : ∀ c ∈ l, c.isLineBreak = false) : Tidy l.stripRight :=
  ⟨fun c hc => h c (stripRight_subset l hc), stripRight_stripRight l⟩

theorem stripLeft_append_blank {m : Text} (hm : m.isBlank = true) (r : Text) : stripLeft (m ++ r) = stripLeft r :=
  List.dropWhile_append_of_pos fun c hc => List.all_eq_true.1 hm c hc

/-- the first part stands at the front of the whole, whatever it is -/
theorem exists_join_cons (separator : Text) (parts : List Text) :
    ∃ behind, ∀ p, join separator (p :: parts) = p ++ behind := by
  cases parts with
  | nil => exact ⟨[], fun p => by simp [join]⟩
  | cons q parts => exact ⟨_, fun p => by rw [join_cons_cons, List.append_assoc]⟩

/-- white space in front of some lines is that of the first, if this holds more than white space -/
theorem stripLeft_join {f : Text} (h : f.isBlank = false) (separator : Text) (parts : List Text) :
    stripLeft (join separator (f :: parts)) = join separator (f.stripLeft :: parts) := by
  obtain ⟨behind, hjoin⟩ := exists_join_cons separator parts
  have hkept : (f.dropWhile CodePoint.isBlank).isEmpty = false := by
    rw [List.isEmpty_eq_false_iff, Ne, List.dropWhile_eq_nil_iff]
    exact fun hblank => Bool.false_ne_true (h.symm.trans (List.all_eq_true.2 hblank))
  rw [hjoin, hjoin, stripLeft, List.dropWhile_append, hkept, if_neg Bool.false_ne_true, stripLeft]

/-- tidy lines of which the last is not empty have no white space at their end -/
theorem stripRight_join {ls : List Text} (h : ∀ l ∈ ls, Tidy l) (hlast : ∀ l ∈ ls.getLast?, l ≠ []) (separator : Text) :
    stripRight (join separator ls) = join separator ls := by
  rcases List.eq_nil_or_concat ls with rfl | ⟨front, last, rfl⟩
  · rfl
  · rw [List.concat_eq_append] at h hlast ⊢
    have htidy : Tidy last := h last (by simp)
    rw [join_concat, stripRight_append _ (htidy.isBlank_eq_false (hlast last (by simp))), htidy.trimmed]

/-- lines are cut at the line feeds that join them, as long as no other break stands in them and the last is not empty -/
theorem lines_join {ls : List Text} (h : ∀ l ∈ ls, ∀ c ∈ l, c.isLineBreak = false) (hlast : ∀ l ∈ ls.getLast?, l ≠ []) :
    lines (join "\n" ls) = ls := by
  induction ls with
  | nil => rfl
  | cons l ls ih =>
    obtain ⟨hl, hls⟩ := List.forall_mem_cons.1 h
    cases ls with
    | nil => simp [join, lines, cutLines_plain hl (hlast l rfl)]
    | cons k ls =>
      have hmore := ih hls fun m hm => hlast m (by rwa [List.getLast?_cons_cons])
      rw [join_cons_cons, List.append_assoc]
      show (cutLines (l ++ CodePoint.ofChar '\n' :: join "\n" (k :: ls))).map Prod.fst = _
      rw [cutLines_append hl (cutLines_lineFeed _), List.map_cons, ← lines, hmore]

end Text

namespace Comment

open Text

theorem mem_of_mem_plainLine {line : Text} {c : CodePoint} (h : c ∈ plainLine line) : c ∈ line := by
  have hleft : line.stripLeft <:+ line := List.dropWhile_suffix _
  unfold plainLine at h
  split at h
  · exact stripRight_subset _ h
  · next d rest hline =>
    split at h
    · have hrest : c ∈ rest := by
        have hkept := stripRight_subset _ h
        cases hafter : after? " " rest with
        | none => simpa [hafter] using hkept
        | some behind =>
          rw [eq_append_of_after? hafter]
          exact List.mem_append_right _ (by simpa [hafter] using hkept)
      exact hleft.subset (hline ▸ List.mem_cons_of_mem d hrest)
    · exact stripRight_subset _ h

/-- the lines of a comment are tidy -/
theorem tidy_plainLines (raw : Text) : ∀ l ∈ plainLines raw, Tidy l := by
  refine List.forall_mem_map.2 fun line hline => ⟨fun c hc => ?_, ?_⟩
  · obtain ⟨p, hp, rfl⟩ := List.mem_map.1 hline
    exact plain_of_mem_cutLines _ p hp c (mem_of_mem_plainLine hc)
  · unfold plainLine
    split
    · exact stripRight_stripRight _
    · split <;> exact stripRight_stripRight _

theorem tagLine?_append_blank {m : Text} (hm : m.isBlank = true) (r : Text) : tagLine? (m ++ r) = tagLine? r := by
  rw [tagLine?, tagLine?, strip, strip, stripLeft_append_blank hm]

theorem tagBlocks_of_untagged {ls : List Text} (h : ∀ l ∈ ls, tagLine? l = none) : tagBlocks ls = [] := by
  induction ls with
  | nil => rfl
  | cons l ls ih =>
    obtain ⟨hl, hls⟩ := List.forall_mem_cons.1 h
    rw [tagBlocks, hl]
    exact ih hls

/-! ## Paragraphs -/

/-- the lines of a body in normal form -/
structure Paragraphs (ls : List Text) : Prop where
  tidy : ∀ l ∈ ls, Tidy l
  untagged : ∀ l ∈ ls, tagLine? l = none
  first : ∀ l ∈ ls.head?, l ≠ [] ∧ l.stripLeft = l
  last : ∀ l ∈ ls.getLast?, l ≠ []
  apart : ls.IsChain fun l m => l = [] → m ≠ []

theorem Paragraphs.nil : Paragraphs [] where
  tidy := List.forall_mem_nil _
  untagged := List.forall_mem_nil _
  first := by rintro l ⟨⟩
  last := by rintro l ⟨⟩
  apart := List.isChain_nil

/-- a block has no empty line at either end -/
theorem block_ends (ls : List Text) : (∀ l ∈ (block ls).head?, l ≠ []) ∧ ∀ l ∈ (block ls).getLast?, l ≠ [] := by
  let kept := (dedent ls).dropWhile List.isEmpty
  have hblock : block ls = kept.rdropWhile List.isEmpty := rfl
  refine ⟨fun l hl => ?_, fun l hl => ?_⟩
  · obtain ⟨back, hback⟩ := List.rdropWhile_prefix List.isEmpty kept
    have hhead : kept.head? = some l := by rw [← hback, ← hblock, List.head?_append, hl]; rfl
    have hnot := List.head?_dropWhile_not List.isEmpty (dedent ls)
    rw [show (dedent ls).dropWhile List.isEmpty = kept from rfl, hhead] at hnot
    rintro rfl
    cases hnot
  · rw [hblock] at hl
    have hne : kept.rdropWhile List.isEmpty ≠ [] := by
      intro hnil
      rw [hnil] at hl
      cases hl
    have hlast := List.rdropWhile_last_not List.isEmpty kept hne
    rw [List.getLast?_eq_some_getLast hne, Option.mem_some_iff] at hl
    rintro rfl
    rw [hl] at hlast
    exact hlast rfl

/-- every line of a block is a line without some blanks and tabs in front -/
theorem mem_block {ls : List Text} {k : Text} (h : k ∈ block ls) :
    ∃ l ∈ ls, ∃ m : Text, l = m ++ k ∧ m.isBlank = true := by
  obtain ⟨front, back, hblock, -⟩ := exists_block ls
  obtain ⟨f, hf, hlines⟩ := exists_dedent ls
  have hmem : k ∈ ls.map f := by
    rw [← hf, hblock]
    exact List.mem_append_right _ (List.mem_append_left _ h)
  obtain ⟨l, hl, rfl⟩ := List.mem_map.1 hmem
  obtain ⟨m, hm, hblank⟩ := hlines l hl
  exact ⟨l, hl, m, hm, isBlank_of_all_isIndentation hblank⟩

section SingleBlanks

theorem singleBlanks_sublist (ls : List Text) : (singleBlanks ls).Sublist ls := by
  fun_induction singleBlanks ls with
  | case1 => exact List.Sublist.refl _
  | case2 => exact List.Sublist.refl _
  | case3 l m rest _ ih => exact ih.cons l
  | case4 l m rest _ ih => exact ih.cons_cons l

theorem head?_singleBlanks (ls : List Text) : (singleBlanks ls).head? = ls.head? := by
  fun_induction singleBlanks ls with
  | case1 => rfl
  | case2 => rfl
  | case3 l m rest h ih => rw [ih, h.1, h.2]; rfl
  | case4 => rfl

theorem getLast?_singleBlanks (ls : List Text) : (singleBlanks ls).getLast? = ls.getLast? := by
  fun_induction singleBlanks ls with
  | case1 => rfl
  | case2 => rfl
  | case3 l m rest _ ih => rw [ih, List.getLast?_cons_cons]
  | case4 l m rest _ ih =>
    rw [List.getLast?_cons_cons, List.getLast?_cons, ih, List.getLast?_cons]
    rfl

theorem isChain_singleBlanks (ls : List Text) : (singleBlanks ls).IsChain fun l m => l = [] → m ≠ [] := by
  fun_induction singleBlanks ls with
  | case1 => exact List.isChain_nil
  | case2 l => exact List.isChain_singleton l
  | case3 l m rest _ ih => exact ih
  | case4 l m rest h ih =>
    refine List.isChain_cons.2 ⟨fun k hk hl hempty => h ⟨hl, ?_⟩, ih⟩
    rw [head?_singleBlanks] at hk
    rw [← Option.some.inj hk] at hempty
    exact hempty

/-- lines without two blank ones in a row stay as they are -/
theorem singleBlanks_of_isChain {ls : List Text} (h : ls.IsChain fun l m => l = [] → m ≠ []) : singleBlanks ls = ls := by
  fun_induction singleBlanks ls with
  | case1 => rfl
  | case2 => rfl
  | case3 l m rest hempty _ => exact absurd hempty.2 ((List.isChain_cons_cons.1 h).1 hempty.1)
  | case4 l m rest _ ih => rw [ih (List.isChain_cons_cons.1 h).2]

end SingleBlanks

/-- the lines of a body are those of a block without repeated blank ones, the first without white space in front -/
theorem exists_paragraphs {ls : List Text} (htidy : ∀ l ∈ ls, Tidy l) :
    ∃ ks, Paragraphs ks ∧ bodyText (bodyLines ls) = join "\n" ks := by
  let body := bodyLines ls
  have hbody : ∀ l ∈ singleBlanks (block body), Tidy l ∧ tagLine? l = none := by
    intro k hk
    obtain ⟨l, hl, m, rfl, hm⟩ := mem_block ((singleBlanks_sublist _).subset hk)
    have huntagged : tagLine? (m ++ k) = none := by
      have hnone := List.all_eq_true.1 List.all_takeWhile _ hl
      simpa using hnone
    exact ⟨(htidy _ ((List.takeWhile_sublist _).subset hl)).behind, tagLine?_append_blank hm k ▸ huntagged⟩
  have hends := block_ends body
  rw [← head?_singleBlanks, ← getLast?_singleBlanks] at hends
  have hapart := isChain_singleBlanks (block body)
  rw [bodyText]
  generalize singleBlanks (block body) = ks at hbody hends hapart
  cases ks with
  | nil => exact ⟨[], .nil, rfl⟩
  | cons f ks =>
    obtain ⟨⟨hf, huntagged⟩, hks⟩ := List.forall_mem_cons.1 hbody
    have hfne : f ≠ [] := hends.1 f rfl
    have hkept : f.stripLeft ≠ [] := by
      rw [stripLeft, Ne, List.dropWhile_eq_nil_iff]
      exact fun hblank => hfne (hf.eq_nil (List.all_eq_true.2 hblank))
    have htagless : tagLine? f.stripLeft = none := by
      rw [← List.takeWhile_append_dropWhile (p := CodePoint.isBlank) (l := f),
        tagLine?_append_blank List.all_takeWhile] at huntagged
      exact huntagged
    have hlast : ∀ l ∈ (f.stripLeft :: ks).getLast?, l ≠ [] := by
      cases ks with
      | nil => exact fun l hl => Option.some.inj hl ▸ hkept
      | cons k ks => exact fun l hl => hends.2 l (by rwa [List.getLast?_cons_cons] at hl ⊢)
    have htidy : ∀ l ∈ f.stripLeft :: ks, Tidy l := List.forall_mem_cons.2 ⟨hf.stripLeft, fun l hl => (hks l hl).1⟩
    refine ⟨f.stripLeft :: ks, ⟨htidy, ?_, ?_, hlast, ?_⟩, ?_⟩
    · exact List.forall_mem_cons.2 ⟨htagless, fun l hl => (hks l hl).2⟩
    · rintro l ⟨⟩
      exact ⟨hkept, List.dropWhile_idempotent CodePoint.isBlank f⟩
    · exact List.isChain_cons.2 ⟨fun _ _ hempty => absurd hempty hkept, (List.isChain_cons.1 hapart).2⟩
    · rw [strip, stripLeft_join (hf.isBlank_eq_false hfne), stripRight_join htidy hlast]

/-- no white space stands at either end of paragraphs -/
theorem Paragraphs.strip_join {ls : List Text} (h : Paragraphs ls) (separator : Text) :
    strip (join separator ls) = join separator ls := by
  cases ls with
  | nil => rfl
  | cons f ls =>
    obtain ⟨hfne, hfirst⟩ := h.first f rfl
    rw [strip, stripLeft_join ((h.tidy f List.mem_cons_self).isBlank_eq_false hfne), hfirst, stripRight_join h.tidy h.last]

theorem Paragraphs.lines_join {ls : List Text} (h : Paragraphs ls) : lines (join "\n" ls) = ls :=
  Text.lines_join (fun l hl => (h.tidy l hl).plain) h.last

/-! ## Written again -/

/-- a line behind a star -/
def starred (l : Text) : Text := " * " ++ l

/-- some lines as a comment: the marks on lines of their own, and each line behind a star -/
def asComment (ls : List Text) : Text :=
  join "\n" ([ofString "/**"] ++ ls.map starred ++ [ofString " */"])

/-- a line is read from behind its star -/
theorem plainLine_starred {l : Text} (h : Tidy l) : plainLine (starred l) = l := by
  show stripRight ((after? " " (" " ++ l)).getD (" " ++ l)) = l
  exact h.trimmed

theorem inside_asComment (ls : List Text) :
    inside (asComment ls) = join "\n" ([] :: (ls.map starred ++ [ofString " "])) := by
  have hcomment : asComment ls = "/**" ++ join "\n" ([] :: (ls.map starred ++ [ofString " "])) ++ "*/" := by
    rw [asComment, ← List.cons_append, join_concat, join_concat]
    simp [ofString]
  rw [hcomment, inside_marks]

theorem plainLines_asComment {ls : List Text} (h : ∀ l ∈ ls, Tidy l) :
    plainLines (asComment ls) = [] :: (ls ++ [[]]) := by
  have hstar : ∀ c ∈ ofString " * ", c.isLineBreak = false := by decide
  have hplain : ∀ l ∈ [] :: (ls.map starred ++ [ofString " "]), ∀ c ∈ l, c.isLineBreak = false := by
    refine List.forall_mem_cons.2 ⟨List.forall_mem_nil _, List.forall_mem_append.2 ⟨List.forall_mem_map.2 fun l hl => ?_,
      List.forall_mem_singleton.2 (by decide)⟩⟩
    exact List.forall_mem_append.2 ⟨hstar, (h l hl).plain⟩
  have hlines : (inside (asComment ls)).lines = [] :: (ls.map starred ++ [ofString " "]) := by
    rw [inside_asComment, lines_join hplain]
    rw [← List.cons_append, List.getLast?_append, List.getLast?_singleton, Option.some_or]
    rintro l ⟨⟩
    exact List.cons_ne_nil _ _
  have hstars : (ls.map starred).map plainLine = ls := by
    rw [List.map_map]
    exact (List.map_congr_left fun l hl => plainLine_starred (h l hl)).trans (List.map_id' ls)
  rw [plainLines, hlines, List.map_cons, List.map_append, hstars]
  rfl

/-- tidy lines that share no indentation stay as they are -/
theorem dedent_eq_self {ls : List Text} (h : ∀ l ∈ ls, Tidy l) (hmargin : ∀ m ∈ margin? ls, m = []) : dedent ls = ls := by
  have hnone : (margin? ls).getD [] = [] := by
    cases hfound : margin? ls with
    | none => rfl
    | some m => exact hmargin m hfound
  rw [dedent, hnone]
  refine (List.map_congr_left fun l hl => ?_).trans (List.map_id ls)
  by_cases hall : l.all isIndentation = true
  · rw [if_pos hall, (h l hl).eq_nil (isBlank_of_all_isIndentation hall), id]
  · rw [if_neg hall, List.length_nil, List.drop_zero, id]

/-- a line without white space in front has no indentation -/
theorem takeWhile_isIndentation {f : Text} (h : f.stripLeft = f) : f.takeWhile isIndentation = [] := by
  cases f with
  | nil => rfl
  | cons c rest =>
    have hc : ¬ c.isBlank = true := List.dropWhile_eq_self_iff.1 h (Nat.succ_pos _)
    exact List.takeWhile_cons_of_neg fun hindent => hc (CodePoint.isBlank_of_isIndentation hindent)

/-- empty lines around paragraphs are no part of the block; the first line has no indentation to share -/
theorem block_paragraphs {ls : List Text} (h : Paragraphs ls) : block ([] :: (ls ++ [[]])) = ls := by
  have htidy : ∀ l ∈ [] :: (ls ++ [[]]), Tidy l :=
    List.forall_mem_cons.2 ⟨.nil, List.forall_mem_append.2 ⟨h.tidy, List.forall_mem_singleton.2 .nil⟩⟩
  cases ls with
  | nil => rfl
  | cons f ls =>
    obtain ⟨hfne, hfirst⟩ := h.first f rfl
    have hall : f.all isIndentation = false := by
      have hblank := (h.tidy f List.mem_cons_self).isBlank_eq_false hfne
      exact Bool.eq_false_iff.2 fun hall => Bool.false_ne_true (hblank.symm.trans (isBlank_of_all_isIndentation hall))
    have hmargin : ∀ m ∈ margin? ([] :: (f :: ls ++ [[]])), m = [] := by
      intro m hm
      have hprefix := margin?_prefix hm f (by simp) hall
      rwa [takeWhile_isIndentation hfirst, List.prefix_nil] at hprefix
    have hfront : ([] :: (f :: ls ++ [[]])).dropWhile List.isEmpty = f :: ls ++ [[]] := by
      rw [List.dropWhile_cons_of_pos rfl, List.cons_append, List.dropWhile_cons_of_neg (by simpa using hfne)]
    have hlast : (f :: ls).rdropWhile List.isEmpty = f :: ls := by
      refine List.rdropWhile_eq_self_iff.2 fun hne hempty => ?_
      exact h.last _ (List.getLast?_eq_some_getLast hne) (List.isEmpty_iff.1 hempty)
    rw [block, dedent_eq_self htidy hmargin, hfront]
    exact (List.rdropWhile_concat_pos _ _ [] rfl).trans hlast

/-- paragraphs are read from a comment again, and no tags -/
theorem ofRaw_asComment {ls : List Text} (h : Paragraphs ls) : ofRaw (asComment ls) = ⟨join "\n" ls, []⟩ := by
  have huntagged : ∀ l ∈ [] :: (ls ++ [[]]), tagLine? l = none :=
    List.forall_mem_cons.2 ⟨rfl, List.forall_mem_append.2 ⟨h.untagged, List.forall_mem_singleton.2 rfl⟩⟩
  have hbody : bodyLines ([] :: (ls ++ [[]])) = [] :: (ls ++ [[]]) :=
    List.takeWhile_eq_self_iff.2 fun l hl => by rw [huntagged l hl]; rfl
  rw [ofRaw, plainLines_asComment h.tidy, hbody, bodyText, block_paragraphs h, singleBlanks_of_isChain h.apart,
    h.strip_join, tagBlocks_of_untagged huntagged]
  rfl

/-- **The text of a comment is in normal form**, whatever the comment holds: it has no white space at either end, no line
of it has white space at its end, and no two blank lines follow one another. Its lines, each behind a star of its own,
make a comment with the same text and no tags. -/
theorem comment_text_is_normal (raw : Text) :
    (ofRaw raw).text.strip = (ofRaw raw).text ∧ (∀ l ∈ (ofRaw raw).text.lines, l.stripRight = l) ∧
      ((ofRaw raw).text.lines.IsChain fun l m => l.isBlank = true → m.isBlank = false) ∧
      ((ofRaw raw).text ≠ [] → (ofRaw raw).text.feedLines = (ofRaw raw).text.lines) ∧
      ofRaw (asComment (ofRaw raw).text.lines) = ⟨(ofRaw raw).text, []⟩ ∧
      ofRaw (asComment (ofRaw raw).text.feedLines) = ⟨(ofRaw raw).text, []⟩ := by
  obtain ⟨ls, hls, htext⟩ := exists_paragraphs (tidy_plainLines raw)
  have hraw : (ofRaw raw).text = join "\n" ls := by rw [ofRaw, htext]
  have hagain := ofRaw_asComment hls
  have hfeed : ls ≠ [] → (join "\n" ls).feedLines = ls :=
    fun hne => feedLines_join (fun l hl => (hls.tidy l hl).lineFeed_notMem) hne
  rw [hraw, hls.lines_join, hls.strip_join]
  refine ⟨rfl, fun l hl => (hls.tidy l hl).trimmed, ?_, fun hne => hfeed ?_, hagain, ?_⟩
  · refine hls.apart.imp_of_mem_imp fun l m hl hm happart hblank => ?_
    exact (hls.tidy m hm).isBlank_eq_false (happart ((hls.tidy l hl).eq_nil hblank))
  · rintro rfl
    exact hne rfl
  · by_cases hne : ls = []
    · subst hne
      rfl
    · rwa [hfeed hne]

end Comment

end Rulebook
