/-
What is shown of the comments on a page. The body of a comment and the values of its tags are made of tidy lines
(`isTidy_ofRaw`): one that is not blank ends in no white space, so it stays when the ends of sections and pages are
stripped. A label or a margin in front of a line keeps its end.

- `exists_part`, `tagPart_shows`: no tag of a rule falls through, in Markdown or in plain text;
- `rule_comments_are_shown`: the comment of each rule that is read is on the page with all its tags, that of the grammar
  without them.
-/
import Rulebook.Proofs.Openings
import Rulebook.Proofs.Pages
import Rulebook.Proofs.Rewriting

namespace Rulebook

open Source

/-! ## Texts of tidy lines -/

namespace Text

variable {t l : Text}

/-- tidy lines, put together with line feeds -/
def IsTidy (t : Text) : Prop := ∃ ls, (∀ l ∈ ls, Tidy l) ∧ t = join "\n" ls

theorem Tidy.isTidy (h : Tidy l) : l.IsTidy := ⟨[l], List.forall_mem_singleton.2 h, by simp [join]⟩

theorem join_append_cons (separator l k : Text) (ls ks : List Text) :
    join separator (l :: (ls ++ k :: ks)) = join separator (l :: ls) ++ separator ++ join separator (k :: ks) := by
  induction ls generalizing l with
  | nil => simp [join]
  | cons m ls ih =>
    rw [List.cons_append, join_cons_cons, ih, join_cons_cons]
    simp only [List.append_assoc]

theorem IsTidy.append {u : Text} (ht : t.IsTidy) (hu : u.IsTidy) : (t ++ "\n" ++ u).IsTidy := by
  have hlines : ∀ {v : Text}, v.IsTidy → ∃ l ls, (∀ k ∈ l :: ls, Tidy k) ∧ v = join "\n" (l :: ls) := by
    rintro v ⟨ls, hls, rfl⟩
    cases ls with
    | nil => exact ⟨[], [], List.forall_mem_singleton.2 .nil, rfl⟩
    | cons l ls => exact ⟨l, ls, hls, rfl⟩
  obtain ⟨l, ls, hls, rfl⟩ := hlines ht
  obtain ⟨k, ks, hks, rfl⟩ := hlines hu
  exact ⟨(l :: ls) ++ (k :: ks), List.forall_mem_append.2 ⟨hls, hks⟩, (join_append_cons "\n" l k ls ks).symm⟩

theorem mem_of_mem_lines_join {ls : List Text} (h : ∀ l ∈ ls, ∀ c ∈ l, c.isLineBreak = false)
    (hl : l ∈ lines (join "\n" ls)) : l ∈ ls := by
  induction ls with
  | nil => cases hl
  | cons k ls ih =>
    obtain ⟨hk, hls⟩ := List.forall_mem_cons.1 h
    cases ls with
    | nil =>
      by_cases hne : k = []
      · subst hne
        cases hl
      · simpa [join, lines, cutLines_plain hk hne] using hl
    | cons m ls =>
      rw [join_cons_cons, List.append_assoc] at hl
      rw [lines, show k ++ (ofString "\n" ++ join "\n" (m :: ls)) = k ++ CodePoint.ofChar '\n' :: join "\n" (m :: ls)
        from rfl, cutLines_append hk (cutLines_lineFeed _), List.map_cons, ← lines] at hl
      rcases List.mem_cons.1 hl with rfl | hl
      · exact List.mem_cons_self
      · exact List.mem_cons_of_mem _ (ih hls hl)

theorem ne_nil_of_mem_lines (h : l ∈ lines t) : t ≠ [] := by
  rintro rfl
  cases h

/-- the lines of a text of tidy lines are tidy, and line feeds cut it in the same way -/
theorem IsTidy.mem_feedLines (h : t.IsTidy) (hl : l ∈ t.lines) : Tidy l ∧ l ∈ t.feedLines := by
  obtain ⟨ls, hls, rfl⟩ := h
  have hmem := mem_of_mem_lines_join (fun l hl => (hls l hl).plain) hl
  refine ⟨hls l hmem, ?_⟩
  rwa [feedLines_join (fun l hl => (hls l hl).lineFeed_notMem) (List.ne_nil_of_mem hmem)]

/-- indented lines stand behind the margin, as long as they are not blank -/
theorem mem_feedLines_indent {margin : Text} (hmargin : CodePoint.ofChar '\n' ∉ margin) {ls : List Text}
    (h : ∀ l ∈ ls, Tidy l) (hl : l ∈ ls) (hblank : l.isBlank = false) :
    margin ++ l ∈ feedLines (indent margin (join "\n" ls)) := by
  induction ls with
  | nil => cases hl
  | cons k ls ih =>
    obtain ⟨hk, hls⟩ := List.forall_mem_cons.1 h
    cases ls with
    | nil =>
      obtain rfl := List.mem_singleton.1 hl
      have hne : l ≠ [] := by
        rintro rfl
        cases hblank
      have hindent : indent margin (join "\n" [l]) = margin ++ l := by
        simp [join, indent, cutLines_plain hk.plain hne, hblank]
      rw [hindent, feedLines_of_notMem (List.mem_append.not.2 (not_or.2 ⟨hmargin, hk.lineFeed_notMem⟩))]
      exact List.mem_singleton_self _
    | cons m ls =>
      have hindent : ∃ front : Text, (k.isBlank = false → front = margin ++ k) ∧
          indent margin (join "\n" (k :: m :: ls)) =
            front ++ CodePoint.ofChar '\n' :: indent margin (join "\n" (m :: ls)) := by
        rw [join_cons_cons, List.append_assoc, indent,
          show k ++ (ofString "\n" ++ join "\n" (m :: ls)) = k ++ CodePoint.ofChar '\n' :: join "\n" (m :: ls) from rfl,
          cutLines_append hk.plain (cutLines_lineFeed _), List.flatMap_cons, ← indent]
        have hall : isBlank (k ++ [CodePoint.ofChar '\n']) = k.isBlank := by
          rw [isBlank, List.all_append, ← isBlank]
          exact Bool.and_true _
        simp only [hall]
        cases hkblank : k.isBlank with
        | true => exact ⟨k, fun hfalse => Bool.noConfusion hfalse, by simp⟩
        | false => exact ⟨margin ++ k, fun _ => rfl, by simp⟩
      obtain ⟨front, hfront, hindent⟩ := hindent
      rw [hindent, feedLines_append_lineFeed]
      rcases List.mem_cons.1 hl with rfl | hl
      · refine List.mem_append_left _ ?_
        rw [hfront hblank, feedLines_of_notMem (List.mem_append.not.2 (not_or.2 ⟨hmargin, hk.lineFeed_notMem⟩))]
        exact List.mem_singleton_self _
      · exact List.mem_append_right _ (ih hls hl)

end Text

/-! ## The comments of a raw text -/

namespace Comment

open Text

theorem tidy_tagLine {line name first : Text} (hline : Tidy line) (h : tagLine? line = some (name, first)) :
    Tidy first := by
  unfold tagLine? at h
  split at h
  · next at_ c rest hstrip =>
    split at h
    · obtain ⟨-, rfl⟩ := Prod.mk.inj (Option.some.inj h)
      have hrest : ∀ d ∈ rest, d.isLineBreak = false := by
        intro d hd
        have hmem : d ∈ strip line := by
          rw [hstrip]
          exact List.mem_cons_of_mem _ (List.mem_cons_of_mem _ hd)
        exact hline.plain d ((List.dropWhile_suffix _).subset (stripRight_subset _ hmem))
      refine tidy_stripRight fun d hd => hrest d ?_
      exact (List.dropWhile_suffix _).subset ((List.dropWhile_suffix _).subset hd)
    · cases h
  · cases h

/-- the value of a tag is that of its own line and of lines behind it -/
theorem exists_tagLine {ls more : List Text} {name first : Text} (h : (name, first, more) ∈ tagBlocks ls) :
    ∃ l ∈ ls, tagLine? l = some (name, first) ∧ more ⊆ ls := by
  induction ls with
  | nil => cases h
  | cons l ls ih =>
    have hbehind : (name, first, more) ∈ tagBlocks ls →
        ∃ k ∈ l :: ls, tagLine? k = some (name, first) ∧ more ⊆ l :: ls := fun hmore => by
      obtain ⟨k, hk, htag, hsubset⟩ := ih hmore
      exact ⟨k, List.mem_cons_of_mem l hk, htag, List.subset_cons_of_subset l hsubset⟩
    rw [tagBlocks] at h
    split at h
    · exact hbehind h
    · next htag =>
      rcases List.mem_cons.1 h with heq | h
      · cases heq
        exact ⟨l, List.mem_cons_self, htag, List.subset_cons_of_subset l (List.takeWhile_subset _)⟩
      · exact hbehind h

theorem isTidy_tagOf {name first : Text} {more : List Text} (hfirst : Tidy first) (hmore : ∀ l ∈ more, Tidy l) :
    (tagOf name first more).value.IsTidy := by
  have hbehind : (join "\n" (block more)).IsTidy := by
    refine ⟨block more, fun k hk => ?_, rfl⟩
    obtain ⟨l, hl, m, rfl, -⟩ := mem_block hk
    exact (hmore _ hl).behind
  have hown := hfirst.isTidy
  rw [tagOf]
  generalize join "\n" (block more) = behind at hbehind
  cases first with
  | nil =>
    cases behind with
    | nil => simpa [join] using hown
    | cons d behind => simpa [join] using hbehind
  | cons c first =>
    cases behind with
    | nil => simpa [join] using hown
    | cons d behind => simpa [join] using hown.append hbehind

/-- the body and the values of the tags are made of tidy lines -/
structure IsTidy (c : Comment) : Prop where
  text : c.text.IsTidy
  values : ∀ t ∈ c.tags, t.value.IsTidy

theorem isTidy_ofRaw (raw : Text) : (ofRaw raw).IsTidy where
  text := by
    obtain ⟨ls, hls, htext⟩ := exists_paragraphs (tidy_plainLines raw)
    exact ⟨ls, hls.tidy, by rw [ofRaw, htext]⟩
  values := by
    intro t ht
    obtain ⟨⟨name, first, more⟩, hblock, rfl⟩ := List.mem_map.1 ht
    obtain ⟨l, hl, htag, hsubset⟩ := exists_tagLine hblock
    exact isTidy_tagOf (tidy_tagLine (tidy_plainLines raw l hl) htag) fun k hk => tidy_plainLines raw k (hsubset hk)

theorem isTidy_ofRaw? (raw : Option Text) : (ofRaw? raw).IsTidy := by
  cases raw with
  | none => exact ⟨⟨[], List.forall_mem_nil _, rfl⟩, List.forall_mem_nil _⟩
  | some raw => exact isTidy_ofRaw raw

end Comment

/-! ## What a section shows -/

/-- a text shows a comment: every line of the body that is not blank is one of its lines, and every such line of the value
of a tag stands at the end of one -/
structure ShowsComment (page : Text) (c : Comment) : Prop where
  body : ∀ l ∈ c.text.lines, l.isBlank = false → l ∈ page.feedLines
  tags : ∀ t ∈ c.tags, ∀ l ∈ t.value.lines, l.isBlank = false → ∃ front, front ++ l ∈ page.feedLines

/-- a text that has the lines of another that are not blank and end in no white space shows what the other shows -/
theorem ShowsComment.mono {section_ page : Text} {c : Comment} (h : ShowsComment section_ c) (hc : c.IsTidy)
    (hlines : ∀ l ∈ section_.feedLines, l.stripRight = l → l.isBlank = false → l ∈ page.feedLines) :
    ShowsComment page c where
  body l hl hblank := hlines l (h.body l hl hblank) (hc.text.mem_feedLines hl).1.trimmed hblank
  tags t ht l hl hblank := by
    obtain ⟨front, hfront⟩ := h.tags t ht l hl hblank
    have htidy := ((hc.values t ht).mem_feedLines hl).1
    have hkept : Text.isBlank (front ++ l) = false := by
      rw [Text.isBlank, List.all_append, ← Text.isBlank, ← Text.isBlank, hblank, Bool.and_false]
    exact ⟨front, hlines _ hfront (by rw [Text.stripRight_append front hblank, htidy.trimmed]) hkept⟩

namespace Markdown

/-- every tag has a part of its own, whatever its name: an example as code, or a line behind a label -/
theorem exists_part {c : Comment} {t : Tag} (ht : t ∈ c.tags) :
    ∃ part ∈ exampleParts c ++ labelledParts c ++ otherParts c, part = t.value ∨
      ∃ label : Text, part = label ++ t.value ++ "\n" := by
  have hvalue : t.value ∈ c.values t.name := List.mem_map_of_mem (List.mem_filter.2 ⟨ht, by simp⟩)
  by_cases hexample : t.name = exampleTag
  · refine ⟨t.value, List.mem_append_left _ (List.mem_append_left _ (List.mem_flatMap.2 ⟨t.value, ?_, ?_⟩)), .inl rfl⟩
    · rwa [← hexample]
    · simp
  · by_cases hlabel : t.name ∈ labels.map Prod.fst
    · obtain ⟨⟨name, label⟩, hmem, hname⟩ := List.mem_map.1 hlabel
      refine ⟨"**" ++ label ++ ":** " ++ t.value ++ "\n",
        List.mem_append_left _ (List.mem_append_right _ (List.mem_flatMap.2 ⟨(name, label), hmem, ?_⟩)), .inr ⟨_, rfl⟩⟩
      refine List.mem_map.2 ⟨t.value, ?_, rfl⟩
      rwa [show name = t.name from hname]
    · refine ⟨"**@" ++ t.name ++ ":** " ++ t.value ++ "\n", List.mem_append_right _ (List.mem_map.2 ⟨t, ?_, rfl⟩),
        .inr ⟨_, rfl⟩⟩
      exact List.mem_filter.2 ⟨ht, by simpa [hexample] using hlabel⟩

theorem showsComment_ruleSection {d : RuleDoc} (hc : d.comment.IsTidy) (m : Mapping) (kind : Text)
    (declaration : Option Text) (references : List Reference) :
    ShowsComment (ruleSection d m kind declaration references) d.comment where
  body l hl hblank := by
    have hne := Text.ne_nil_of_mem_lines hl
    refine (Text.feedLines_infix_lines (p := d.comment.text ++ "\n") ?_).subset ?_
    · simp [if_neg hne]
    · rw [Text.feedLines_behind]
      exact List.mem_append_left _ (hc.text.mem_feedLines hl).2
  tags t ht l hl hblank := by
    have hvalue := ((hc.values t ht).mem_feedLines hl).2
    obtain ⟨part, hpart, hshape⟩ := exists_part ht
    have hline : ∃ front, front ++ l ∈ part.feedLines := by
      rcases hshape with rfl | ⟨label, rfl⟩
      · exact ⟨[], hvalue⟩
      · obtain ⟨front, hfront⟩ := Text.exists_front label hvalue
        rw [Text.feedLines_behind]
        exact ⟨front, List.mem_append_left _ hfront⟩
    obtain ⟨front, hfront⟩ := hline
    refine ⟨front, (Text.feedLines_infix_lines ?_).subset hfront⟩
    simp only [List.mem_append] at hpart ⊢
    tauto

theorem showsComment_formatRule {o : Options} {d : RuleDoc} {m : Mapping} {t : Text} (hc : d.comment.IsTidy)
    (h : formatRule o (.doc d) m = .ok t) : ShowsComment t d.comment := by
  obtain ⟨_, kind, declaration, references, ⟨⟩, -, rfl⟩ := Entry.formatted_ok h
  exact showsComment_ruleSection hc m kind declaration references

end Markdown

namespace PlainText

/-- the value of a tag stands behind its label, or below it when it has several lines -/
theorem tagPart_shows {t : Tag} (ht : t.value.IsTidy) {l : Text} (hl : l ∈ t.value.lines) (hblank : l.isBlank = false) :
    ∃ front, front ++ l ∈ (tagPart t).feedLines := by
  have hmargin : CodePoint.ofChar '\n' ∉ margin := by decide
  unfold tagPart
  split
  · have hindented : margin ++ l ∈ (Text.indent margin t.value).feedLines := by
      obtain ⟨ls, hls, hvalue⟩ := ht
      rw [hvalue] at hl ⊢
      exact Text.mem_feedLines_indent hmargin hls (Text.mem_of_mem_lines_join (fun k hk => (hls k hk).plain) hl) hblank
    obtain ⟨front, hfront⟩ := Text.exists_front (Text.capitalize t.name ++ ":\n") hindented
    rw [← List.append_assoc] at hfront
    exact ⟨front ++ margin, hfront⟩
  · exact Text.exists_front _ (ht.mem_feedLines hl).2

theorem showsComment_ruleSection {d : RuleDoc} (hc : d.comment.IsTidy) (m : Mapping) (kind : Text)
    (declaration : Option Text) (references : List Reference) :
    ShowsComment (ruleSection d m kind declaration references) d.comment where
  body l hl hblank := by
    have hne := Text.ne_nil_of_mem_lines hl
    rw [ruleSection, Text.feedLines_behind]
    refine List.mem_append_left _ ((Text.feedLines_infix_paragraphs ?_).subset (hc.text.mem_feedLines hl).2)
    simp [if_neg hne]
  tags t ht l hl hblank := by
    obtain ⟨front, hfront⟩ := tagPart_shows (hc.values t ht) hl hblank
    rw [ruleSection, Text.feedLines_behind]
    refine ⟨front, List.mem_append_left _ ((Text.feedLines_infix_paragraphs ?_).subset hfront)⟩
    have hmem : tagPart t ∈ d.comment.tags.map tagPart := List.mem_map_of_mem ht
    simp only [List.mem_append]
    tauto

theorem showsComment_formatRule {o : Options} {d : RuleDoc} {m : Mapping} {t : Text} (hc : d.comment.IsTidy)
    (h : formatRule o (.doc d) m = .ok t) : ShowsComment t d.comment := by
  obtain ⟨_, kind, declaration, references, ⟨⟩, -, rfl⟩ := Entry.formatted_ok h
  exact showsComment_ruleSection hc m kind declaration references

end PlainText

/-! ## What a page shows -/

/-- a page shows the comment of a supported entry when its section does -/
theorem Sections.showsComment {render : Entry → Except FormatError Text} {failed : Entry → Unsupported → Text}
    {es : List Entry} {sections : List Text} (h : Sections render failed es sections) {d : RuleDoc}
    (hd : Entry.doc d ∈ es) (hsupported : (Entry.doc d).Supported) (hc : d.comment.IsTidy)
    (hrender : ∀ t, render (.doc d) = .ok t → ShowsComment t d.comment) (opening : List Text) :
    ShowsComment (GrammarDoc.joinParts (opening ++ [GrammarDoc.joinSections sections])) d.comment := by
  obtain ⟨t, ht, hrendered⟩ := h.exists_section hd hsupported
  refine (hrender t hrendered).mono hc fun l hl htrimmed hblank => ?_
  have hline : [] ++ [l] <:+: t.feedLines := (List.singleton_infix_iff ..).2 hl
  exact (List.singleton_infix_iff ..).1 (GrammarDoc.infix_page htrimmed hblank ht hline opening)

section

variable {g : GrammarDoc} (hkinded : ∀ e ∈ g.entries, e.Kinded) (o : Options)

include hkinded

theorem Markdown.exists_page : ∃ sections,
    Sections (fun e => formatRule o e g.mapping) failedSection g.entries sections ∧
      formatGrammar o g = (.ok (GrammarDoc.joinParts (opening g ++ [GrammarDoc.joinSections sections])),
        complaintsOf g.name g.entries) := by
  obtain ⟨sections, hsections, hlog⟩ := exists_sections g.name failedSection fun e he =>
    makes_markdown (hkinded e he) o g.mapping
  refine ⟨sections, hsections, ?_⟩
  rw [formatGrammar, hlog]
  simp [opening]

theorem PlainText.exists_page : ∃ sections,
    Sections (fun e => formatRule o e g.mapping) failedSection g.entries sections ∧
      formatGrammar o g = (.ok (GrammarDoc.joinParts (opening g ++ [GrammarDoc.joinSections sections])),
        complaintsOf g.name g.entries) := by
  obtain ⟨sections, hsections, hlog⟩ := exists_sections g.name failedSection fun e he =>
    makes_plainText (hkinded e he) o g.mapping
  have hempty : sections.isEmpty = g.entries.isEmpty := by
    rw [Bool.eq_iff_iff, List.isEmpty_iff_length_eq_zero, List.isEmpty_iff_length_eq_zero, hsections.length_eq]
  refine ⟨sections, hsections, ?_⟩
  rw [formatGrammar, hlog]
  simp [opening, hempty]

end

/-- a page does not depend on the tags of the comment of the grammar, unless the comment is empty without them -/
theorem formatGrammar_retagged {c : FormatterClass} (hc : c = .markdown ∨ c = .plainText) (o : Options) (g : GrammarDoc)
    (tags : List Tag) (h : Comment.isEmpty ⟨g.comment.text, tags⟩ = g.comment.isEmpty) :
    c.formatGrammar o { g with comment := ⟨g.comment.text, tags⟩ } = c.formatGrammar o g := by
  rcases hc with rfl | rfl
  · show Markdown.formatGrammar o _ = Markdown.formatGrammar o g
    rw [Markdown.formatGrammar, Markdown.formatGrammar, Markdown.headParts, Markdown.headParts, h]
    rfl
  · show PlainText.formatGrammar o _ = PlainText.formatGrammar o g
    rw [PlainText.formatGrammar, PlainText.formatGrammar, PlainText.headParts, PlainText.headParts, h]
    rfl

/-- the body of the comment of a grammar is on its page -/
theorem mem_feedLines_page {g : GrammarDoc} (hg : g.comment.IsTidy) {l : Text} (hl : l ∈ g.comment.text.lines)
    (hblank : l.isBlank = false) (rest : Text) :
    l ∈ (GrammarDoc.joinParts (Markdown.opening g ++ [rest])).feedLines ∧
      l ∈ (GrammarDoc.joinParts (PlainText.opening g ++ [rest])).feedLines := by
  obtain ⟨htidy, hline⟩ := hg.text.mem_feedLines hl
  have hempty : g.comment.isEmpty = false := by
    rw [Comment.isEmpty, List.isEmpty_eq_false_iff.2 (Text.ne_nil_of_mem_lines hl), Bool.false_and]
  have hpart : ∀ {parts : List Text} {p : Text}, p ∈ parts → l ∈ p.feedLines →
      l ∈ (GrammarDoc.joinParts parts).feedLines := by
    intro parts p hp hmem
    have hrow : [] ++ [l] <:+: p.feedLines := (List.singleton_infix_iff ..).2 hmem
    exact (List.singleton_infix_iff ..).1 (GrammarDoc.infix_joinParts htidy.trimmed hblank hp hrow)
  constructor
  · refine hpart (p := g.comment.text ++ "\n") ?_ ?_
    · simp [Markdown.opening, Markdown.headParts, hempty]
    · rw [Text.feedLines_behind]
      exact List.mem_append_left _ hline
  · refine hpart ?_ hline
    simp [PlainText.opening, PlainText.headParts, hempty]

/-! ## Grammars that are read -/

/-- a rule of a kind that can be declared has a document of a variant of its own -/
theorem supported_ofRule {r : Rule} (h : r.kind ≠ .unresolved) (label : Nat) : (Entry.doc (.ofRule label r)).Supported := by
  obtain ⟨⟨kind, name, typeName, comment, line, definition⟩, id⟩ := r
  cases kind with
  | unresolved => exact absurd rfl h
  | parser fragment hidden => exact DocVariant.noConfusion
  | terminal fragment => exact DocVariant.noConfusion
  | enumeration => exact DocVariant.noConfusion

/-- the documents of a grammar that is read: each rule has a supported one that holds its comment, and the definitions have
texts -/
theorem exists_doc_of_readWith {load : Text → Library → Library.Outcome Grammar} {file : Path} {source : Text}
    {l : Library} {g : Grammar} (hg : (Library.readWith load file source l).1 = .ok g) :
    ∃ doc, (GrammarDoc.ofGrammar g).1 = .ok doc ∧ doc.comment = Comment.ofRaw? g.comment ∧
      (∀ e ∈ doc.entries, e.Supported ∧ e.Kinded) ∧
      ∀ r ∈ g.rules, ∃ d, Entry.doc d ∈ doc.entries ∧ d.rule = r ∧ d.comment = Comment.ofRaw? r.comment := by
  obtain ⟨w, used, id, hw, rfl⟩ := linked_of_readWith hg
  obtain ⟨words, hlex, hdefined⟩ := defined_of_ofText hw
  refine ⟨_, ofGrammar_link w id used (qualified_of_ofText hw).1.ne_nil, rfl, ?_, fun r hr => ?_⟩
  · intro e he
    obtain ⟨d, hd, rfl⟩ := List.mem_map.1 he
    obtain ⟨label, r, hr, rfl⟩ := GrammarDoc.mem_docsFrom hd
    obtain ⟨i, hi⟩ := List.mem_iff_getElem?.1 hr
    obtain ⟨wr, hwr, rfl⟩ := rule_of_link hi
    obtain ⟨hheaded, hdef⟩ := hdefined wr (List.mem_of_getElem? hwr)
    refine ⟨supported_ofRule (fun hkind => ?_) label, ?_⟩
    · have hdistinct := hheaded.distinct
      rw [show wr.kind = .unresolved from hkind] at hdistinct
      exact hdistinct
    · rintro _ ⟨⟩ - t ht
      have hprintable := unprintable?_of_defined hlex hdef (w.scope id used) i
      rw [Rule.unprintable?, show ((w.scope id used).linkRule i wr).definition = some t from ht] at hprintable
      exact Element.kinded_iff.2 hprintable
  · rw [← GrammarDoc.rules_docsFrom 0 (w.link id used).rules] at hr
    obtain ⟨d, hd, rfl⟩ := List.mem_map.1 hr
    obtain ⟨label, r, -, rfl⟩ := GrammarDoc.mem_docsFrom hd
    exact ⟨_, List.mem_map_of_mem hd, rfl, rfl⟩

/-- **The comments of all rules are on the page**, of every grammar that is read and under all options, in Markdown and in
plain text: each line of a body that is not blank is a line of the page, and each such line of the value of a tag stands at
the end of one, whatever the name of the tag. Of the comment of the grammar the body is there and the tags are not: with
other tags in their stead, if there are any to be replaced, the page is the same. -/
theorem rule_comments_are_shown {load : Text → Library → Library.Outcome Grammar} {file : Path} {source : Text}
    {l : Library} {g : Grammar} (hg : (Library.readWith load file source l).1 = .ok g) (o : Options) :
    ∃ doc, (GrammarDoc.ofGrammar g).1 = .ok doc ∧ ∀ c, c = FormatterClass.markdown ∨ c = FormatterClass.plainText →
      ∃ page log, c.formatGrammar o doc = (.ok page, log) ∧
        (∀ k ∈ (Comment.ofRaw? g.comment).text.lines, k.isBlank = false → k ∈ page.feedLines) ∧
        (∀ r ∈ g.rules, ShowsComment page (Comment.ofRaw? r.comment)) ∧
        ∀ tags, Comment.isEmpty ⟨(Comment.ofRaw? g.comment).text, tags⟩ = (Comment.ofRaw? g.comment).isEmpty →
          c.formatGrammar o { doc with comment := ⟨(Comment.ofRaw? g.comment).text, tags⟩ } = (.ok page, log) := by
  obtain ⟨doc, hdoc, hcomment, hentries, hrules⟩ := exists_doc_of_readWith hg
  have htidy : doc.comment.IsTidy := hcomment ▸ Comment.isTidy_ofRaw? g.comment
  refine ⟨doc, hdoc, fun c hc => ?_⟩
  have hretagged := formatGrammar_retagged hc o doc
  rw [hcomment] at hretagged
  rcases hc with rfl | rfl
  · obtain ⟨sections, hsections, hpage⟩ := Markdown.exists_page (fun e he => (hentries e he).2) o
    refine ⟨_, _, hpage, fun k hk hblank => ?_, fun r hr => ?_, fun tags h => (hretagged tags h).trans hpage⟩
    · exact (mem_feedLines_page htidy (by rwa [hcomment]) hblank _).1
    · obtain ⟨d, hd, -, hown⟩ := hrules r hr
      have hc : d.comment.IsTidy := hown ▸ Comment.isTidy_ofRaw? r.comment
      exact hown ▸ hsections.showsComment hd (hentries _ hd).1 hc (fun t => Markdown.showsComment_formatRule hc) _
  · obtain ⟨sections, hsections, hpage⟩ := PlainText.exists_page (fun e he => (hentries e he).2) o
    refine ⟨_, _, hpage, fun k hk hblank => ?_, fun r hr => ?_, fun tags h => (hretagged tags h).trans hpage⟩
    · exact (mem_feedLines_page htidy (by rwa [hcomment]) hblank _).2
    · obtain ⟨d, hd, -, hown⟩ := hrules r hr
      have hc : d.comment.IsTidy := hown ▸ Comment.isTidy_ofRaw? r.comment
      exact hown ▸ hsections.showsComment hd (hentries _ hd).1 hc (fun t => PlainText.showsComment_formatRule hc) _

/-- `grammar a` with the rule `A: 'b';` and the tag `see` for it -/
def tellingText : Text := "grammar a /** Says b.\n@see c */ A:'b';"

/-- a rule of one keyword with a tag is read, and the value of the tag is on both pages -/
theorem value_of_rule_tag_is_shown : ∃ (g : Grammar) (doc : GrammarDoc),
    (Library.readWith (fun name l => (.ok (Library.stub l.fresh name), l)) (Path.ofText "a") tellingText .empty).1 =
      .ok g ∧ (GrammarDoc.ofGrammar g).1 = .ok doc ∧
      ∀ c, c = FormatterClass.markdown ∨ c = FormatterClass.plainText → ∃ page log,
        c.formatGrammar .standard doc = (.ok page, log) ∧ Text.ofString "Says b." ∈ page.feedLines ∧
          ∃ front, front ++ Text.ofString "c" ∈ page.feedLines := by
  have hlexed : Lexed.ofSource (Path.ofText "a") tellingText = .ok ⟨[⟨.name, "grammar", 1, 1, 7⟩, ⟨.name, "a", 1, 9, 1⟩,
      ⟨.headComment, "/** Says b.\n@see c */", 1, 11, 21⟩, ⟨.name, "A", 2, 11, 1⟩, ⟨.symbol .colon, ":", 2, 12, 1⟩,
      ⟨.literal, "b", 2, 13, 3⟩, ⟨.symbol .semicolon, ";", 2, 16, 1⟩], ⟨2, 17⟩⟩ := by cbv
  have hkeyword : Leaf .parser [⟨⟨.literal, "b", 2, 13, 3⟩, none⟩] (.keyword .none "b") := .keyword rfl
  have hread := readWith_bare (fun name l => (.ok (Library.stub l.fresh name), l))
    (s := ⟨⟨.symbol .semicolon, ";", 2, 16, 1⟩, none⟩) hlexed rfl ⟨rfl, rfl⟩ rfl rfl (by decide) rfl
    (alternatives_of_element (element_of_plain (plain_of_atom (.leaf hkeyword)))) rfl
  obtain ⟨doc, hdoc, hshown⟩ := rule_comments_are_shown hread .standard
  refine ⟨_, doc, hread, hdoc, fun c hc => ?_⟩
  obtain ⟨page, log, hpage, -, hrules, -⟩ := hshown c hc
  have hrule := hrules _ List.mem_cons_self
  refine ⟨page, log, hpage, hrule.body _ ?_ (by decide), hrule.tags ⟨"see", "c"⟩ ?_ _ ?_ (by decide)⟩
  · decide
  · decide +kernel
  · decide

/-- the only tag of a grammar is on neither page -/
theorem tag_of_grammar_is_lost : ∃ (g : Grammar) (doc : GrammarDoc) (page plainPage : Text),
    (Library.readWith (fun name l => (.ok (Library.stub l.fresh name), l)) (Path.ofText "a") "/** @since 1.2 */ grammar a"
      .empty).1 = .ok g ∧ (GrammarDoc.ofGrammar g).1 = .ok doc ∧
      Comment.ofRaw? g.comment = ⟨[], [⟨"since", "1.2"⟩]⟩ ∧
      FormatterClass.markdown.formatGrammar .standard doc = (.ok page, []) ∧
      FormatterClass.plainText.formatGrammar .standard doc = (.ok plainPage, []) ∧
      ¬ Text.ofString "1.2" <:+: page ∧ ¬ Text.ofString "1.2" <:+: plainPage := by
  have hread : WrittenGrammar.ofText (Path.ofText "a") "/** @since 1.2 */ grammar a" =
      .ok ⟨"a", some "/** @since 1.2 */", [], [], [], []⟩ := by cbv
  refine ⟨_, _, _, _, readWith_of_ofText _ _ hread rfl, ofGrammar_link _ _ _ (by decide), ?_, rfl, rfl, ?_, ?_⟩
  · decide +kernel
  · decide +kernel
  · decide

end Rulebook
