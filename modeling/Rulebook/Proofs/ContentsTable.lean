/-
The rows of the table of contents. A row is one line, and its cells are what stands between its bars, where a bar behind
an odd number of backslashes belongs to its cell (`pieces`, `cells`). Names, anchors and kinds hold none of these marks
(`unmarked_link`, `unmarked_kindLabel`), and the white space of a summary is blanks (`blank_of_mem_summary`), so a row is
one line and only its summary can divide it.

Every bar of a summary gets a backslash in front of it, which leaves the number of backslashes before any other place as
it was. So a bar separates on the page exactly when an odd number of them stood before it in the summary
(`length_pieces_cell`), and a row has three cells and one more for each such bar (`Tabulates.length_cells`).

- `rows_keep_columns_iff`: the rows of a grammar that is read, and which of them have three cells;
- `escaped_bar_divides`: a bar that was escaped in the comment.
-/
import Rulebook.Proofs.CodeBlocks
import Rulebook.Proofs.RuleDocuments

namespace Rulebook

open Source

/-! ## Summaries -/

theorem Text.not_isBlank_of_mem_words {t w : Text} (hw : w ∈ t.words) : ∀ c ∈ w, c.isBlank = false := by
  induction t generalizing w with
  | nil => cases hw
  | cons c t ih =>
    unfold words at hw
    split at hw
    · exact ih hw
    · next hc =>
      have hpoint : c.isBlank = false := Bool.not_eq_true _ ▸ hc
      split at hw
      · rw [List.mem_singleton.1 hw]
        exact List.forall_mem_singleton.2 hpoint
      · split at hw
        · rcases List.mem_cons.1 hw with rfl | hw
          · exact List.forall_mem_singleton.2 hpoint
          · exact ih hw
        · split at hw
          · rw [List.mem_singleton.1 hw]
            exact List.forall_mem_singleton.2 hpoint
          · next first more hwords =>
            rcases List.mem_cons.1 hw with rfl | hw
            · exact List.forall_mem_cons.2 ⟨hpoint, ih (hwords ▸ List.mem_cons_self)⟩
            · exact ih (hwords ▸ List.mem_cons_of_mem _ hw)

namespace Comment

theorem sentence?_subset {t u : Text} (h : sentence? t = some u) : u ⊆ t := by
  induction t generalizing u with
  | nil => cases h
  | cons c t ih =>
    rw [sentence?] at h
    split at h
    · cases h
      exact List.cons_subset_cons c (List.nil_subset t)
    · obtain ⟨more, hmore, rfl⟩ := Option.map_eq_some_iff.1 h
      exact List.cons_subset_cons c (ih hmore)

theorem firstSentence_subset (t : Text) : firstSentence t ⊆ t := by
  cases t with
  | nil => exact List.Subset.refl _
  | cons c t =>
    rw [firstSentence]
    split
    · next more hmore => exact List.cons_subset_cons c (sentence?_subset hmore)
    · exact List.Subset.refl _

/-- the white space of a summary is blanks -/
theorem blank_of_mem_summary {c : Comment} {p : CodePoint} (hp : p ∈ c.summary) :
    p = CodePoint.ofChar ' ' ∨ p.isBlank = false :=
  Text.forall_mem_join (P := fun p => p = CodePoint.ofChar ' ' ∨ p.isBlank = false)
    (List.forall_mem_singleton.2 (.inl rfl)) (fun _ hw p hp => .inr (Text.not_isBlank_of_mem_words hw p hp)) p
    (firstSentence_subset _ hp)

theorem summary_isPlain (c : Comment) : ∀ p ∈ c.summary, p.isLineBreak = false := by
  intro p hp
  rcases blank_of_mem_summary hp with rfl | hblank
  · decide
  · simp only [CodePoint.isBlank, CodePoint.isLineBreak, CodePoint.inRanges, List.any_cons, List.any_nil, Bool.or_false,
      Bool.or_eq_false_iff, Bool.and_eq_false_iff, decide_eq_false_iff_not] at hblank ⊢
    omega

end Comment

namespace Markdown

/-! ## Cells -/

/-- the number of backslashes up to a code point, when `n` of them stand right before it -/
def slashesTo (n : Nat) (c : CodePoint) : Nat := if c = '\\' then n + 1 else 0

/-- the number of backslashes at the end of a text, when `n` of them stand right before it -/
def backslashes (n : Nat) (t : Text) : Nat := t.foldl slashesTo n

/-- what stands between the bars of a text that separate, when `n` backslashes stand right before it. A bar separates
unless the number of backslashes before it is odd -/
def pieces (n : Nat) : Text → List Text
  | [] => [[]]
  | c :: rest =>
    if c = '|' ∧ n % 2 = 0 then [] :: pieces 0 rest
    else (pieces (slashesTo n c) rest).modifyHead (c :: ·)

def withoutBlank : List Text → List Text
  | [] => []
  | p :: ps => if p.isBlank then ps else p :: ps

/-- the cells of a row. The bars at its ends, with nothing outside of them, separate nothing -/
def cells (row : Text) : List Text :=
  (withoutBlank (withoutBlank (pieces 0 row)).reverse).reverse

/-- how many bars stand behind an odd number of backslashes, when `n` of these stand right before the text -/
def strayBars (n : Nat) : Text → Nat
  | [] => 0
  | c :: rest => (if c = '|' ∧ n % 2 = 1 then 1 else 0) + strayBars (slashesTo n c) rest

theorem backslashes_cons (n : Nat) (c : CodePoint) (t : Text) :
    backslashes n (c :: t) = backslashes (slashesTo n c) t := rfl

theorem backslashes_concat (n : Nat) (t : Text) {c : CodePoint} (h : c ≠ CodePoint.ofChar '\\') :
    backslashes n (t ++ [c]) = 0 := by
  rw [backslashes, List.foldl_append]
  exact if_neg h

theorem pieces_ne_nil (n : Nat) (t : Text) : pieces n t ≠ [] := by
  induction t generalizing n with
  | nil => exact List.cons_ne_nil _ _
  | cons c t ih =>
    rw [pieces]
    split
    · exact List.cons_ne_nil _ _
    · rw [Ne, ← List.length_eq_zero_iff, List.length_modifyHead, List.length_eq_zero_iff]
      exact ih _

/-- a bar behind an even number of backslashes separates what stands before it from what stands behind it -/
theorem pieces_append_bar {n : Nat} {t : Text} (h : backslashes n t % 2 = 0) (rest : Text) :
    pieces n (t ++ CodePoint.ofChar '|' :: rest) = pieces n t ++ pieces 0 rest := by
  induction t generalizing n with
  | nil => exact if_pos ⟨rfl, h⟩
  | cons c t ih =>
    rw [backslashes_cons] at h
    rw [List.cons_append, pieces, pieces]
    split
    · next hbar =>
      rw [hbar.1] at h
      rw [ih (n := 0) h, List.cons_append]
    · rw [ih h]
      obtain ⟨p, ps, hp⟩ := List.exists_cons_of_ne_nil (pieces_ne_nil (slashesTo n c) t)
      rw [hp]
      rfl

/-- a text that nothing separates is a piece -/
theorem pieces_eq_singleton {n : Nat} {t : Text} (h : (pieces n t).length = 1) : pieces n t = [t] := by
  induction t generalizing n with
  | nil => rfl
  | cons c t ih =>
    rw [pieces] at h ⊢
    split at h
    · next hbar =>
      rw [List.length_cons, Nat.add_eq_right, List.length_eq_zero_iff] at h
      exact absurd h (pieces_ne_nil 0 t)
    · next hbar =>
      rw [if_neg hbar]
      rw [List.length_modifyHead] at h
      rw [ih h]
      rfl

theorem length_pieces_of_notMem {t : Text} (h : CodePoint.ofChar '|' ∉ t) (n : Nat) : (pieces n t).length = 1 := by
  induction t generalizing n with
  | nil => rfl
  | cons c t ih =>
    obtain ⟨hc, ht⟩ := not_or.1 (List.mem_cons.not.1 h)
    rw [pieces, if_neg fun hbar => hc hbar.1.symm, List.length_modifyHead]
    exact ih ht _

/-- no bar is a stray one exactly when an even number of backslashes stands before each -/
theorem strayBars_eq_zero_iff (n : Nat) (t : Text) :
    strayBars n t = 0 ↔ ∀ front back, t = front ++ CodePoint.ofChar '|' :: back → backslashes n front % 2 = 0 := by
  induction t generalizing n with
  | nil => simp [strayBars]
  | cons c t ih =>
    rw [strayBars, Nat.add_eq_zero_iff, ih]
    constructor
    · rintro ⟨hfirst, hmore⟩ front back hsplit
      cases front with
      | nil =>
        obtain ⟨rfl, -⟩ := List.cons.inj hsplit
        show n % 2 = 0
        by_contra hodd
        rw [if_pos ⟨rfl, by omega⟩] at hfirst
        cases hfirst
      | cons d front =>
        obtain ⟨rfl, htail⟩ := List.cons.inj hsplit
        exact hmore front back htail
    · intro h
      refine ⟨if_neg fun hbar => ?_, fun front back hsplit => ?_⟩
      · have heven : n % 2 = 0 := h [] t (by rw [hbar.1]; rfl)
        omega
      · exact h (c :: front) back (by rw [hsplit]; rfl)

/-- escaped bars leave the backslashes at every other place as they are. A bar separates behind the backslash that it gets
when an odd number of them stands before that -/
theorem length_pieces_cell (n : Nat) (t rest : Text) :
    (pieces n (cell t ++ rest)).length = strayBars n t + (pieces (backslashes n t) rest).length := by
  -- the count of backslashes is general: it starts again behind every other code point
  induction t generalizing n with
  | nil => exact (Nat.zero_add _).symm
  | cons c t ih =>
    rw [show cell (c :: t) = cellPoint c ++ cell t from rfl, List.append_assoc, strayBars, backslashes_cons,
      Nat.add_assoc, ← ih]
    unfold cellPoint
    split
    · next hbar =>
      subst hbar
      have hslash : pieces n (Text.ofString "\\|" ++ (cell t ++ rest)) =
          (pieces (n + 1) (CodePoint.ofChar '|' :: (cell t ++ rest))).modifyHead (CodePoint.ofChar '\\' :: ·) := rfl
      have hreset : slashesTo n (CodePoint.ofChar '|') = 0 := rfl
      -- one backslash more stands before the bar now, so it separates in the other case than it would have
      rw [hslash, List.length_modifyHead, hreset, pieces]
      by_cases hodd : n % 2 = 1
      · rw [if_pos ⟨rfl, by omega⟩, if_pos ⟨rfl, hodd⟩, List.length_cons, Nat.add_comm]
      · rw [if_neg fun h => hodd (by omega), if_neg fun h => hodd h.2, List.length_modifyHead, Nat.zero_add]
        rfl
    · next hbar =>
      have hnone : (if c = CodePoint.ofChar '|' ∧ n % 2 = 1 then 1 else 0) = 0 := if_neg fun h => hbar h.1
      rw [hnone, Nat.zero_add]
      split
      · next hfeed =>
        subst hfeed
        exact List.length_modifyHead
      · rw [List.singleton_append, pieces, if_neg fun h => hbar h.1, List.length_modifyHead]

/-! ## What a row is made of -/

/-- the text stands on one line of one cell, wherever it is put -/
def Unmarked (t : Text) : Prop := ∀ c ∈ t, c.isLineBreak = false ∧ c ∉ Text.ofString "|\\"

instance (t : Text) : Decidable (Unmarked t) :=
  inferInstanceAs (Decidable (∀ c ∈ t, c.isLineBreak = false ∧ c ∉ Text.ofString "|\\"))

theorem Unmarked.append {t u : Text} (ht : Unmarked t) (hu : Unmarked u) : Unmarked (t ++ u) :=
  List.forall_mem_append.2 ⟨ht, hu⟩

theorem Unmarked.bar_notMem {t : Text} (h : Unmarked t) : CodePoint.ofChar '|' ∉ t :=
  fun hmem => (h _ hmem).2 (by decide)

/-- a class of code points between the hyphen and the end of the basic alphabet holds no line break -/
theorem unmarked_of {P : CodePoint → Bool} (hmarks : ∀ c ∈ Text.ofString "|\\", P c = false)
    (hrange : ∀ c, P c = true → 0x2D ≤ c.val ∧ c.val < 0x80) {t : Text} (h : ∀ c ∈ t, P c = true) : Unmarked t := by
  intro c hc
  have hbounds := hrange c (h c hc)
  refine ⟨?_, fun hmark => ?_⟩
  · simp only [CodePoint.isLineBreak, CodePoint.inRanges, List.any_cons, List.any_nil, Bool.or_false, Bool.or_eq_false_iff,
      Bool.and_eq_false_iff, decide_eq_false_iff_not]
    omega
  · exact Bool.false_ne_true ((hmarks c hmark).symm.trans (h c hc))

theorem unmarked_of_isSlugPart {t : Text} (h : ∀ c ∈ t, c.isSlugPart = true) : Unmarked t := by
  refine unmarked_of (by decide) (fun c hpart => ?_) h
  simp only [CodePoint.isSlugPart, CodePoint.inRanges, List.any_cons, List.any_nil, Bool.or_false, Bool.or_eq_true,
    Bool.and_eq_true, decide_eq_true_eq] at hpart
  rcases hpart with (hpart | rfl) | rfl
  · omega
  · decide
  · decide

theorem unmarked_of_isIdentifier {n : Text} (h : IsIdentifier n) : Unmarked n := by
  refine unmarked_of (by decide) (fun c hpart => ?_) (nameParts_of_isIdentifier h)
  simp only [Piece.isNamePart, Piece.isNameStart, CodePoint.inRanges, List.any_cons, List.any_nil, Bool.or_false,
    Bool.or_eq_true, Bool.and_eq_true, decide_eq_true_eq] at hpart
  omega

/-- what is claimed for a slug is the slug, with a hyphen and digits behind it if need be -/
theorem isSlugPart_claim (s : Slugs) {base : Text} (h : ∀ c ∈ base, c.isSlugPart = true) :
    ∀ c ∈ (s.claim base).1, c.isSlugPart = true := by
  rcases Slugs.claim_cases s base with ⟨-, hclaim⟩ | ⟨last, n, -, -, -, -, hclaim⟩
  · rwa [hclaim]
  · rw [hclaim]
    have hhyphen : ∀ c ∈ Text.ofString "-", c.isSlugPart = true := by decide
    refine List.forall_mem_append.2 ⟨List.forall_mem_append.2 ⟨h, hhyphen⟩, fun c hc => ?_⟩
    have hdigit := Text.digits_ofNat n c hc
    simp only [CodePoint.isSlugPart, CodePoint.inRanges, List.any_cons, List.any_nil, Bool.or_false] at hdigit ⊢
    rw [hdigit, Bool.or_true, Bool.true_or, Bool.true_or]

theorem isSlugPart_claimAll (s : Slugs) {bases : List Text} (h : ∀ base ∈ bases, ∀ c ∈ base, c.isSlugPart = true) :
    ∀ t ∈ s.claimAll bases, ∀ c ∈ t, c.isSlugPart = true := by
  induction bases generalizing s with
  | nil => exact List.forall_mem_nil _
  | cons base bases ih =>
    obtain ⟨hbase, hbases⟩ := List.forall_mem_cons.1 h
    exact List.forall_mem_cons.2 ⟨isSlugPart_claim s hbase, ih _ hbases⟩

theorem unmarked_anchor (m : Mapping) (id : RuleId) : Unmarked (m.anchor id) := by
  rw [Mapping.anchor]
  cases hlookup : ((m.map Prod.fst).zip m.anchors).lookup id with
  | none => exact List.forall_mem_nil _
  | some t =>
    obtain ⟨before, after, hsplit, -⟩ := List.lookup_eq_some_iff.1 hlookup
    have hpair : (id, t) ∈ (m.map Prod.fst).zip m.anchors := hsplit ▸ List.mem_append_right _ List.mem_cons_self
    have ht : t ∈ m.anchors := (List.of_mem_zip hpair).2
    refine unmarked_of_isSlugPart (isSlugPart_claimAll _ (fun base hbase => ?_) t ht)
    obtain ⟨d, -, rfl⟩ := List.mem_map.1 hbase
    exact fun c hc => List.of_mem_filter hc

/-- a link holds no mark, whatever number its anchor has -/
theorem unmarked_link (m : Mapping) {d : RuleDoc} (h : IsIdentifier d.name) : Unmarked (link m d) := by
  have hopen : Unmarked "[" := by decide
  have hmiddle : Unmarked "](#" := by decide
  have hclose : Unmarked ")" := by decide
  exact (((hopen.append (unmarked_of_isIdentifier h)).append hmiddle).append (unmarked_anchor m _)).append hclose

theorem unmarked_kindLabel {d : RuleDoc} {kind : Text} (h : (Entry.doc d).kindLabel = .ok kind) : Unmarked kind := by
  unfold Entry.kindLabel at h
  cases hvariant : d.variant with
  | parser =>
    simp only [hvariant] at h
    cases h
    split <;> decide
  | terminal =>
    simp only [hvariant] at h
    cases h
    split <;> decide
  | enumeration =>
    simp only [hvariant] at h
    cases h
    decide
  | reference =>
    simp only [hvariant] at h
    cases h

/-! ## Rows -/

/-- no bar of a text stands behind an odd number of backslashes -/
def EvenBars (t : Text) : Prop :=
  ∀ front back, t = front ++ CodePoint.ofChar '|' :: back → backslashes 0 front % 2 = 0

theorem cell_isPlain {t : Text} (h : ∀ c ∈ t, c.isLineBreak = false) : ∀ c ∈ cell t, c.isLineBreak = false := by
  intro c hc
  obtain ⟨d, hd, hc⟩ := List.mem_flatMap.1 hc
  have hescaped : ∀ c ∈ Text.ofString "\\|", c.isLineBreak = false := by decide
  have hblank : ∀ c ∈ Text.ofString " ", c.isLineBreak = false := by decide
  unfold cellPoint at hc
  split at hc
  · exact hescaped c hc
  · split at hc
    · exact hblank c hc
    · rw [List.mem_singleton.1 hc]
      exact h d hd

/-- a cell between blanks is one piece when it holds no mark -/
theorem pieces_between {t : Text} (h : Unmarked t) (rest : Text) :
    pieces 0 (" " ++ t ++ " " ++ CodePoint.ofChar '|' :: rest) = (" " ++ t ++ " ") :: pieces 0 rest := by
  have hblank : CodePoint.ofChar '|' ∉ Text.ofString " " := by decide
  have hbar : CodePoint.ofChar '|' ∉ Text.ofString " " ++ t ++ Text.ofString " " :=
    List.mem_append.not.2 (not_or.2 ⟨List.mem_append.not.2 (not_or.2 ⟨hblank, h.bar_notMem⟩), hblank⟩)
  have hreset : backslashes 0 (" " ++ t ++ " ") = 0 := backslashes_concat 0 (" " ++ t) (by decide)
  rw [pieces_append_bar (by rw [hreset]), pieces_eq_singleton (length_pieces_of_notMem hbar 0), List.singleton_append]

/-- a summary is divided at every bar that stands behind an odd number of backslashes -/
theorem length_pieces_summary (t : Text) : (pieces 0 (" " ++ cell t ++ " ")).length = strayBars 0 t + 1 := by
  have hfirst : pieces 0 (" " ++ cell t ++ " ") = (pieces 0 (cell t ++ " ")).modifyHead (CodePoint.ofChar ' ' :: ·) := rfl
  have hblank : CodePoint.ofChar '|' ∉ Text.ofString " " := by decide
  rw [hfirst, List.length_modifyHead, length_pieces_cell, length_pieces_of_notMem hblank]

/-- the cells of a row: two that hold no marks, and what a third text is divided into -/
theorem cells_row {link kind : Text} (hlink : Unmarked link) (hkind : Unmarked kind) (t : Text) :
    cells ("| " ++ link ++ " | " ++ kind ++ " | " ++ cell t ++ " |") =
      (" " ++ link ++ " ") :: (" " ++ kind ++ " ") :: pieces 0 (" " ++ cell t ++ " ") := by
  have hreset : backslashes 0 (" " ++ cell t ++ " ") = 0 := backslashes_concat 0 (" " ++ cell t) (by decide)
  have hsplit : Text.ofString "| " ++ link ++ " | " ++ kind ++ " | " ++ cell t ++ " |" =
      CodePoint.ofChar '|' :: (" " ++ link ++ " " ++ CodePoint.ofChar '|' :: (" " ++ kind ++ " " ++ CodePoint.ofChar '|' ::
        (" " ++ cell t ++ " " ++ CodePoint.ofChar '|' :: []))) := by
    simp [Text.ofString]
  have hpieces : pieces 0 ("| " ++ link ++ " | " ++ kind ++ " | " ++ cell t ++ " |") =
      [] :: ((" " ++ link ++ " " : Text) :: (" " ++ kind ++ " " : Text) :: pieces 0 (" " ++ cell t ++ " ")) ++ [[]] := by
    rw [hsplit, pieces, if_pos ⟨rfl, rfl⟩, pieces_between hlink, pieces_between hkind,
      pieces_append_bar (by rw [hreset])]
    rfl
  rw [cells, hpieces]
  simp [withoutBlank, Text.isBlank]

/-- a row of the table of contents for a rule: one line, with a link to the section of the rule, its kind, and what its
summary is divided into -/
structure Tabulates (m : Mapping) (r : Rule) (row : Text) : Prop where
  plain : ∀ c ∈ row, c.isLineBreak = false
  cells_eq : ∃ d ∈ m.docs, d.rule = r ∧ ∃ kind, (Entry.doc d).kindLabel = .ok kind ∧
    cells row = (" " ++ link m d ++ " ") :: (" " ++ kind ++ " ") ::
      pieces 0 (" " ++ cell (Comment.ofRaw? r.comment).summary ++ " ")

theorem Tabulates.lineFeed_notMem {m : Mapping} {r : Rule} {row : Text} (h : Tabulates m r row) :
    CodePoint.ofChar '\n' ∉ row := fun hmem => Bool.noConfusion (h.plain _ hmem)

/-- a row has three cells, and one more for each bar of the summary behind an odd number of backslashes -/
theorem Tabulates.length_cells {m : Mapping} {r : Rule} {row : Text} (h : Tabulates m r row) :
    (cells row).length = 3 + strayBars 0 (Comment.ofRaw? r.comment).summary := by
  obtain ⟨d, -, -, kind, -, hcells⟩ := h.cells_eq
  rw [hcells, List.length_cons, List.length_cons, length_pieces_summary]
  omega

theorem tabulates_row {m : Mapping} {d : RuleDoc} (hd : d ∈ m.docs) (hname : IsIdentifier d.name)
    (hvariant : d.variant ≠ .reference) (hcomment : d.comment = Comment.ofRaw? d.rule.comment) :
    Tabulates m d.rule (row m (.doc d)) := by
  obtain ⟨kind, hkind⟩ := Entry.exists_kindLabel hvariant
  have hlink := unmarked_link m hname
  have hlabel := unmarked_kindLabel hkind
  have hrow : row m (.doc d) =
      "| " ++ link m d ++ " | " ++ kind ++ " | " ++ cell (Comment.ofRaw? d.rule.comment).summary ++ " |" := by
    rw [← hcomment]
    simp only [row, hkind]
  refine ⟨?_, d, hd, rfl, kind, hkind, hrow ▸ cells_row hlink hlabel _⟩
  have hplain : ∀ {t : Text}, Unmarked t → ∀ c ∈ t, c.isLineBreak = false := fun h c hc => (h c hc).1
  have hstart : ∀ c ∈ Text.ofString "| ", c.isLineBreak = false := by decide
  have hmiddle : ∀ c ∈ Text.ofString " | ", c.isLineBreak = false := by decide
  have hend : ∀ c ∈ Text.ofString " |", c.isLineBreak = false := by decide
  rw [hrow]
  simp only [List.forall_mem_append]
  exact ⟨⟨⟨⟨⟨⟨hstart, hplain hlink⟩, hmiddle⟩, hplain hlabel⟩, hmiddle⟩, cell_isPlain (Comment.summary_isPlain _)⟩, hend⟩

/-- the rows of the table stand on the page, between its head and the heading of the sections -/
theorem rows_infix_page {g : GrammarDoc} (hentries : g.entries ≠ [])
    (hrows : ∀ e ∈ g.entries, CodePoint.ofChar '\n' ∉ row g.mapping e) (rest : Text) :
    Text.ofString "## Contents" :: [] :: Text.ofString "| Rule | Kind | Summary |" ::
        Text.ofString "|------|------|---------|" :: g.entries.map (row g.mapping) ++ [[], Text.ofString "## Rules"] <:+:
      (GrammarDoc.joinParts (opening g ++ [rest])).feedLines := by
  have hparts : contentsParts g = Text.ofString "## Contents\n" :: Text.ofString "| Rule | Kind | Summary |" ::
      Text.ofString "|------|------|---------|" :: (g.entries.map (row g.mapping) ++ [[]]) := by
    unfold contentsParts
    split
    · next hnil => exact absurd hnil hentries
    · simp
  have hlines : (g.entries.map (row g.mapping)).flatMap Text.feedLines = g.entries.map (row g.mapping) := by
    rw [List.flatMap_map, ← List.flatMap_singleton' (g.entries.map (row g.mapping)), List.flatMap_map]
    exact List.flatMap_congr fun e he => Text.feedLines_of_notMem (hrows e he)
  have hblock := Text.infix_feedLines_lines
    (List.append_ne_nil_of_right_ne_nil (contentsParts g) (List.cons_ne_nil (Text.ofString "## Rules\n") []))
    (headParts g) [rest]
  have hcontents : Text.feedLines "## Contents\n" = [Text.ofString "## Contents", []] := by decide
  have hhead : Text.feedLines "| Rule | Kind | Summary |" = [Text.ofString "| Rule | Kind | Summary |"] := by decide
  have hbelow : Text.feedLines "|------|------|---------|" = [Text.ofString "|------|------|---------|"] := by decide
  have hrules : Text.feedLines "## Rules\n" = [Text.ofString "## Rules", []] := by decide
  have hnone : Text.feedLines [] = [[]] := rfl
  simp only [hparts, List.cons_append, List.append_assoc, List.flatMap_cons, List.flatMap_append, List.flatMap_nil,
    List.append_nil, List.nil_append, hcontents, hhead, hbelow, hrules, hnone, hlines] at hblock
  have htable : Text.ofString "## Contents" :: [] :: Text.ofString "| Rule | Kind | Summary |" ::
      Text.ofString "|------|------|---------|" :: (g.entries.map (row g.mapping) ++ [[]]) ++ [Text.ofString "## Rules"] <:+:
        Text.feedLines (Text.join "\n" (opening g ++ [rest])) := by
    refine List.IsInfix.trans ⟨[], [[]], ?_⟩ (List.IsInfix.trans hblock ?_)
    · simp
    · simp [opening, hparts]
  rw [GrammarDoc.joinParts, Text.feedLines_behind]
  have hstripped := Text.infix_feedLines_stripRight (by decide) (by decide) htable
  simpa using hstripped.trans (List.prefix_append _ _).isInfix

end Markdown

/-- the names of the rules of a grammar that is read are identifiers -/
theorem isIdentifier_of_readWith {load : Text → Library → Library.Outcome Grammar} {file : Path} {source : Text}
    {l : Library} {g : Grammar} (hg : (Library.readWith load file source l).1 = .ok g) {r : Rule} (hr : r ∈ g.rules) :
    IsIdentifier r.name := by
  obtain ⟨w, used, id, hw, rfl⟩ := linked_of_readWith hg
  obtain ⟨i, hi⟩ := List.mem_iff_getElem?.1 hr
  obtain ⟨wr, hwr, rfl⟩ := rule_of_link hi
  obtain ⟨words, -, hdefined⟩ := defined_of_ofText hw
  exact (hdefined wr (List.mem_of_getElem? hwr)).1.identifier

/-- the page of a grammar that is read has a row for each rule, in order -/
theorem exists_rows_of_readWith {load : Text → Library → Library.Outcome Grammar} {file : Path} {source : Text}
    {l : Library} {g : Grammar} (hg : (Library.readWith load file source l).1 = .ok g) (o : Options) :
    ∃ doc page log rows, (GrammarDoc.ofGrammar g).1 = .ok doc ∧
      FormatterClass.markdown.formatGrammar o doc = (.ok page, log) ∧
      (rows ≠ [] → Text.ofString "## Contents" :: [] :: Text.ofString "| Rule | Kind | Summary |" ::
        Text.ofString "|------|------|---------|" :: rows ++ [[], Text.ofString "## Rules"] <:+: page.feedLines) ∧
      List.Forall₂ (Markdown.Tabulates doc.mapping) g.rules rows := by
  obtain ⟨doc, hdoc, -, hentries, -⟩ := exists_doc_of_readWith hg
  obtain ⟨-, hdocs, hfrom⟩ := GrammarDoc.docs_eq hdoc
  have hids : (doc.docs.map fun d => d.rule.id).Nodup := by
    rw [hfrom, GrammarDoc.ids_docsFrom]
    exact (GrammarDoc.documentable hdoc).2
  have hmapped : doc.mapping.docs = doc.docs := by
    rw [mapping_eq hids, Mapping.docs, List.map_map]
    exact List.map_id _
  have hrules : doc.docs.map RuleDoc.rule = g.rules := by rw [hfrom, GrammarDoc.rules_docsFrom]
  have htabulates : ∀ d ∈ doc.docs, Markdown.Tabulates doc.mapping d.rule (Markdown.row doc.mapping (.doc d)) := by
    intro d hd
    have hrule : d.rule ∈ g.rules := hrules ▸ List.mem_map_of_mem hd
    obtain ⟨hsupported, -⟩ := hentries (.doc d) (hdocs ▸ List.mem_map_of_mem hd)
    obtain ⟨label, r, -, rfl⟩ := GrammarDoc.mem_docsFrom (hfrom ▸ hd)
    exact Markdown.tabulates_row (hmapped ▸ hd) (isIdentifier_of_readWith hg hrule) hsupported rfl
  obtain ⟨sections, -, hpage⟩ := Markdown.exists_page (fun e he => (hentries e he).2) o
  refine ⟨doc, _, _, doc.entries.map (Markdown.row doc.mapping), hdoc, hpage, fun hrows => ?_, ?_⟩
  · refine Markdown.rows_infix_page (fun hnil => hrows (by rw [hnil]; rfl)) (fun e he => ?_) _
    rw [hdocs] at he
    obtain ⟨d, hd, rfl⟩ := List.mem_map.1 he
    exact (htabulates d hd).lineFeed_notMem
  · rw [hdocs, List.map_map, ← hrules]
    exact List.forall₂_map_left_iff.2 (List.forall₂_map_right_iff.2 (List.forall₂_same.2 htabulates))

/-- **The rows of the table of contents**, for every grammar that is read. There is one for each rule, in order, each on
one line between the head of the table and the heading of the sections: the link to the section of the rule, its kind and
its summary. The row keeps these three columns exactly when no bar of the summary stands behind an odd number of
backslashes, and else it has one column more for each bar that does. -/
theorem rows_keep_columns_iff {load : Text → Library → Library.Outcome Grammar} {file : Path} {source : Text}
    {l : Library} {g : Grammar} (hg : (Library.readWith load file source l).1 = .ok g) (o : Options) :
    ∃ doc page log rows, (GrammarDoc.ofGrammar g).1 = .ok doc ∧
      FormatterClass.markdown.formatGrammar o doc = (.ok page, log) ∧
      (rows ≠ [] → Text.ofString "## Contents" :: [] :: Text.ofString "| Rule | Kind | Summary |" ::
        Text.ofString "|------|------|---------|" :: rows ++ [[], Text.ofString "## Rules"] <:+: page.feedLines) ∧
      List.Forall₂ (fun r row => Markdown.Tabulates doc.mapping r row ∧
        ((Markdown.cells row).length = 3 ↔ Markdown.EvenBars (Comment.ofRaw? r.comment).summary) ∧
        (Markdown.cells row).length = 3 + Markdown.strayBars 0 (Comment.ofRaw? r.comment).summary) g.rules rows := by
  obtain ⟨doc, page, log, rows, hdoc, hpage, htable, hrows⟩ := exists_rows_of_readWith hg o
  refine ⟨doc, page, log, rows, hdoc, hpage, htable, hrows.imp fun r row h => ⟨h, ?_, h.length_cells⟩⟩
  rw [h.length_cells, Nat.add_eq_left]
  exact Markdown.strayBars_eq_zero_iff 0 _

/-- a bar in the summary of a rule gets a backslash, and the row keeps its three columns -/
theorem barred_summary_keeps_columns : ∃ (g : Grammar) (doc : GrammarDoc) (page row : Text) (log : Log),
    (Library.readWith (fun name l => (.ok (Library.stub l.fresh name), l)) (Path.ofText "a")
      "grammar a /** a|b */ A:'c';" .empty).1 = .ok g ∧ (GrammarDoc.ofGrammar g).1 = .ok doc ∧
      FormatterClass.markdown.formatGrammar .standard doc = (.ok page, log) ∧ row ∈ page.feedLines ∧
      g.rules.map (fun r => (Comment.ofRaw? r.comment).summary) = [Text.ofString "a|b"] ∧
      (Markdown.cells row).length = 3 := by
  have hlexed : Lexed.ofSource (Path.ofText "a") "grammar a /** a|b */ A:'c';" = .ok ⟨[⟨.name, "grammar", 1, 1, 7⟩,
      ⟨.name, "a", 1, 9, 1⟩, ⟨.headComment, "/** a|b */", 1, 11, 10⟩, ⟨.name, "A", 1, 22, 1⟩,
      ⟨.symbol .colon, ":", 1, 23, 1⟩, ⟨.literal, "c", 1, 24, 3⟩, ⟨.symbol .semicolon, ";", 1, 27, 1⟩], ⟨1, 28⟩⟩ := by cbv
  have hkeyword : Leaf .parser [⟨⟨.literal, "c", 1, 24, 3⟩, none⟩] (.keyword .none "c") := .keyword rfl
  have hread := readWith_bare (fun name l => (.ok (Library.stub l.fresh name), l))
    (s := ⟨⟨.symbol .semicolon, ";", 1, 27, 1⟩, none⟩) hlexed rfl ⟨rfl, rfl⟩ rfl rfl (by decide) rfl
    (alternatives_of_element (element_of_plain (plain_of_atom (.leaf hkeyword)))) rfl
  obtain ⟨doc, page, log, rows, hdoc, hpage, htable, hrows⟩ := rows_keep_columns_iff hread .standard
  obtain ⟨row, more, hrow, hmore, rfl⟩ := List.forall₂_cons_left_iff.1 hrows
  obtain rfl := List.forall₂_nil_left_iff.1 hmore
  refine ⟨_, doc, page, row, log, hread, hdoc, hpage, (htable (List.cons_ne_nil _ _)).subset (by simp), ?_, ?_⟩
  · decide +kernel
  · exact hrow.2.2.trans (by decide +kernel)

/-- a bar that was escaped in the comment divides its row into four cells -/
theorem escaped_bar_divides : ∃ (g : Grammar) (doc : GrammarDoc) (page row : Text) (log : Log),
    (Library.readWith (fun name l => (.ok (Library.stub l.fresh name), l)) (Path.ofText "a")
      "grammar a /** a\\|b */ A:'c';" .empty).1 = .ok g ∧ (GrammarDoc.ofGrammar g).1 = .ok doc ∧
      FormatterClass.markdown.formatGrammar .standard doc = (.ok page, log) ∧ row ∈ page.feedLines ∧
      g.rules.map (fun r => (Comment.ofRaw? r.comment).summary) = [Text.ofString "a\\|b"] ∧
      (Markdown.cells row).length = 4 := by
  have hlexed : Lexed.ofSource (Path.ofText "a") "grammar a /** a\\|b */ A:'c';" = .ok ⟨[⟨.name, "grammar", 1, 1, 7⟩,
      ⟨.name, "a", 1, 9, 1⟩, ⟨.headComment, "/** a\\|b */", 1, 11, 11⟩, ⟨.name, "A", 1, 23, 1⟩,
      ⟨.symbol .colon, ":", 1, 24, 1⟩, ⟨.literal, "c", 1, 25, 3⟩, ⟨.symbol .semicolon, ";", 1, 28, 1⟩], ⟨1, 29⟩⟩ := by cbv
  have hkeyword : Leaf .parser [⟨⟨.literal, "c", 1, 25, 3⟩, none⟩] (.keyword .none "c") := .keyword rfl
  have hread := readWith_bare (fun name l => (.ok (Library.stub l.fresh name), l))
    (s := ⟨⟨.symbol .semicolon, ";", 1, 28, 1⟩, none⟩) hlexed rfl ⟨rfl, rfl⟩ rfl rfl (by decide) rfl
    (alternatives_of_element (element_of_plain (plain_of_atom (.leaf hkeyword)))) rfl
  obtain ⟨doc, page, log, rows, hdoc, hpage, htable, hrows⟩ := exists_rows_of_readWith hread .standard
  obtain ⟨row, more, hrow, hmore, rfl⟩ := List.forall₂_cons_left_iff.1 hrows
  obtain rfl := List.forall₂_nil_left_iff.1 hmore
  refine ⟨_, doc, page, row, log, hread, hdoc, hpage, (htable (List.cons_ne_nil _ _)).subset (by simp), ?_, ?_⟩
  · decide +kernel
  · exact hrow.length_cells.trans (by decide +kernel)

end Rulebook
