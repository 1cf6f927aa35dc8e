/-
Examples as blocks of code. A page is read line by line: a line of three or more backticks opens a block, and the first
line behind it that is nothing but as many backticks ends it (`blocks`), blanks in front not counting up to three.

A section puts every example between two lines of three backticks, whatever stands in the example. Read from outside of any
block, the examples of a section come out as they are, and what stands behind them comes out as it is by itself, exactly
when no line of theirs ends its block (`blocks_examples_iff`).

- `examples_stay_in_blocks_iff`: the examples of a comment, and the lines of it that make the difference;
- `fence_in_example_ends_block`: an example with such a line.
-/
import Rulebook.Proofs.CodeBlocks

namespace Rulebook

namespace Markdown

/-! ## Reading blocks of code -/

/-- how many backticks a line begins with behind at most three blanks, and what stands behind them -/
def ticks (line : Text) : Nat × Text :=
  let rest := line.dropWhile fun c : CodePoint => c = ' '
  if (line.takeWhile fun c : CodePoint => c = ' ').length ≤ 3 then
    ((rest.takeWhile fun c : CodePoint => c = '`').length, rest.dropWhile fun c : CodePoint => c = '`')
  else (0, line)

/-- a line opens a block of code with three backticks or more, and some words without backticks behind them. The block goes
on to a line with as many -/
def opens? (line : Text) : Option Nat :=
  let (n, words) := ticks line
  if 3 ≤ n ∧ CodePoint.ofChar '`' ∉ words then some n else none

/-- a line ends a block that was opened with `n` backticks -/
def closes (n : Nat) (line : Text) : Bool :=
  decide (n ≤ (ticks line).1) && (ticks line).2.isBlank

/-- the blocks of code among some lines. When one is open, it comes first, from the first of the lines on; one that does not
end goes on to the last line -/
def blocks : Option Nat → List Text → List (List Text)
  | none, [] => []
  | some _, [] => [[]]
  | none, l :: ls => blocks (opens? l) ls
  | some n, l :: ls => if closes n l then [] :: blocks none ls else (blocks (some n) ls).modifyHead (l :: ·)

/-- a line that ends a block of three backticks: as many or more behind at most three blanks, and nothing else -/
def IsFence (line : Text) : Prop :=
  ∃ margin ≤ 3, ∃ n ≥ 3, line = List.replicate margin (CodePoint.ofChar ' ') ++ List.replicate n (CodePoint.ofChar '`')

theorem takeWhile_eq_replicate (mark : CodePoint) (t : Text) :
    (t.takeWhile fun c => c = mark) = List.replicate (t.takeWhile fun c => c = mark).length mark :=
  List.eq_replicate_of_mem fun _ hc => by simpa using List.mem_takeWhile_imp hc

theorem ticks_fence {margin : Nat} (hmargin : margin ≤ 3) {n : Nat} (hn : 0 < n) :
    ticks (List.replicate margin (CodePoint.ofChar ' ') ++ List.replicate n (CodePoint.ofChar '`')) = (n, []) := by
  obtain ⟨n, rfl⟩ := Nat.exists_eq_add_of_lt hn
  have hblanks : (List.replicate margin (CodePoint.ofChar ' ') ++ List.replicate (0 + n + 1) (CodePoint.ofChar '`')).takeWhile
      (fun c : CodePoint => c = ' ') = List.replicate margin (CodePoint.ofChar ' ') := by
    rw [List.takeWhile_append_of_pos (by simp), List.replicate_succ, List.takeWhile_cons_of_neg (by simp),
      List.append_nil]
  have hrest : (List.replicate margin (CodePoint.ofChar ' ') ++ List.replicate (0 + n + 1) (CodePoint.ofChar '`')).dropWhile
      (fun c : CodePoint => c = ' ') = List.replicate (0 + n + 1) (CodePoint.ofChar '`') := by
    rw [List.dropWhile_append_of_pos (by simp), List.replicate_succ, List.dropWhile_cons_of_neg (by simp)]
  rw [ticks, hblanks, hrest, List.length_replicate, if_pos hmargin]
  simp

/-- a line that does not end in white space ends a block exactly when it is nothing but the backticks behind their margin -/
theorem closes_iff {line : Text} (h : line.Tidy) : closes 3 line = true ↔ IsFence line := by
  rw [closes, Bool.and_eq_true, decide_eq_true_eq]
  constructor
  · rintro ⟨hlong, hblank⟩
    unfold ticks at hlong hblank
    split at hlong
    · next hmargin =>
      rw [if_pos hmargin] at hblank
      have hsplit : line = (line.takeWhile fun c : CodePoint => c = ' ') ++
          (((line.dropWhile fun c : CodePoint => c = ' ').takeWhile fun c : CodePoint => c = '`') ++
            ((line.dropWhile fun c : CodePoint => c = ' ').dropWhile fun c : CodePoint => c = '`')) := by
        rw [List.takeWhile_append_dropWhile, List.takeWhile_append_dropWhile]
      have hnone := (hsplit ▸ h).behind.behind.eq_nil hblank
      rw [hnone, List.append_nil, takeWhile_eq_replicate, takeWhile_eq_replicate (CodePoint.ofChar '`')] at hsplit
      exact ⟨_, hmargin, _, hlong, hsplit⟩
    · cases hlong
  · rintro ⟨margin, hmargin, n, hn, rfl⟩
    rw [ticks_fence hmargin (by omega)]
    exact ⟨hn, rfl⟩

/-- an open block goes on to the first line that ends it -/
theorem head?_blocks (n : Nat) (ls : List Text) : (blocks (some n) ls).head? = some (ls.takeWhile fun l => !closes n l) := by
  induction ls with
  | nil => rfl
  | cons l ls ih =>
    rw [blocks, List.takeWhile_cons]
    cases closes n l with
    | true => rfl
    | false =>
      simp [List.head?_modifyHead, ih]

/-- lines that do not end a block, and one that does -/
theorem blocks_of_forall {n : Nat} {ls : List Text} (h : ∀ l ∈ ls, closes n l = false) {fence : Text}
    (hfence : closes n fence = true) (more : List Text) :
    blocks (some n) (ls ++ fence :: more) = ls :: blocks none more := by
  induction ls with
  | nil => simp [blocks, hfence]
  | cons l ls ih =>
    obtain ⟨hl, hls⟩ := List.forall_mem_cons.1 h
    rw [List.cons_append, blocks, hl, ih hls]
    rfl

/-! ## The examples of a section -/

/-- the lines of an example in a section: a label, and the example between two fences -/
def exampleLines (value : Text) : List Text :=
  [Text.ofString "**Example:**", [], Text.ofString "```"] ++ value.feedLines ++ [Text.ofString "```", []]

theorem blocks_exampleLines (value : Text) (more : List Text) :
    blocks none (exampleLines value ++ more) = blocks (some 3) (value.feedLines ++ Text.ofString "```" :: [] :: more) := by
  have hlabel : opens? "**Example:**" = none := by decide
  have hblank : opens? [] = none := by decide
  have hfence : opens? "```" = some 3 := by decide
  have hlines : exampleLines value ++ more = Text.ofString "**Example:**" :: [] :: Text.ofString "```" ::
      (value.feedLines ++ Text.ofString "```" :: [] :: more) := by
    simp [exampleLines]
  rw [hlines, blocks, hlabel, blocks, hblank, blocks, hfence]

/-- examples come out as they are, and what stands behind them comes out as by itself, exactly when no line of theirs ends a
block -/
theorem blocks_examples_iff (values : List Text) (more : List Text) :
    blocks none (values.flatMap exampleLines ++ more) = values.map Text.feedLines ++ blocks none more ↔
      ∀ v ∈ values, ∀ line ∈ v.feedLines, closes 3 line = false := by
  have hfence : closes 3 "```" = true := by decide
  have hblank : opens? [] = none := by decide
  induction values with
  | nil => simp
  | cons v values ih =>
    rw [List.flatMap_cons, List.append_assoc, blocks_exampleLines, List.map_cons, List.cons_append, List.forall_mem_cons]
    by_cases hv : ∀ line ∈ v.feedLines, closes 3 line = false
    · rw [blocks_of_forall hv hfence, blocks, hblank, List.cons_inj_right]
      exact ih.trans (and_iff_right hv).symm
    · -- the first block that is read ends at the first such line, so it is not the whole example
      refine iff_of_false (fun heq => hv ?_) fun h => hv h.1
      have hhead := head?_blocks 3 (v.feedLines ++ Text.ofString "```" :: [] :: (values.flatMap exampleLines ++ more))
      rw [heq, List.head?_cons, Option.some_inj] at hhead
      intro line hline
      rw [hhead] at hline
      simpa using List.mem_takeWhile_imp hline

/-- the parts of a section ahead of its examples -/
def frontParts (d : RuleDoc) (kind : Text) (declaration : Option Text) : List Text :=
  ["### " ++ d.name ++ "\n", metaLine kind d ++ "\n",
    (if d.comment.text = [] then Text.ofString "_No documentation._" else d.comment.text) ++ "\n"] ++
      declarationParts declaration

/-- the parts of a section behind its examples -/
def backParts (d : RuleDoc) (m : Mapping) (references : List Reference) : List Text :=
  labelledParts d.comment ++ otherParts d.comment ++ linkPart "References" (references.map (referenceLink m)) ++
    linkPart "Referenced by" ((d.referrers m).map (link m))

theorem feedLines_exampleParts (c : Comment) :
    (exampleParts c).flatMap Text.feedLines = (c.values exampleTag).flatMap exampleLines := by
  have hlabel : Text.feedLines "**Example:**\n" = [Text.ofString "**Example:**", []] := by decide
  have hopen : Text.feedLines "```" = [Text.ofString "```"] := by decide
  have hclose : Text.feedLines "```\n" = [Text.ofString "```", []] := by decide
  rw [exampleParts, List.flatMap_assoc]
  refine List.flatMap_congr fun v _ => ?_
  simp [hlabel, hopen, hclose, exampleLines]

/-- the examples of a section stand on lines of their own -/
theorem feedLines_ruleSection (d : RuleDoc) (m : Mapping) (kind : Text) (declaration : Option Text)
    (references : List Reference) : (ruleSection d m kind declaration references).feedLines =
      (frontParts d kind declaration).flatMap Text.feedLines ++ ((d.comment.values exampleTag).flatMap exampleLines ++
        (backParts d m references).flatMap Text.feedLines) := by
  have hparts : ruleSection d m kind declaration references =
      Text.join "\n" (frontParts d kind declaration ++ (exampleParts d.comment ++ backParts d m references)) := by
    simp [ruleSection, frontParts, backParts, List.append_assoc]
  rw [hparts, Text.feedLines_join_lines (by simp [frontParts]), List.flatMap_append, List.flatMap_append,
    feedLines_exampleParts]

end Markdown

/-! ## The examples of a raw comment -/

theorem Text.mem_feedLines_join {line : Text} (hline : line ≠ []) (parts : List Text) :
    line ∈ feedLines (join "\n" parts) ↔ ∃ p ∈ parts, line ∈ p.feedLines := by
  by_cases hparts : parts = []
  · subst hparts
    have hnone : feedLines (join "\n" []) = [[]] := rfl
    simp [hnone, hline]
  · rw [feedLines_join_lines hparts, List.mem_flatMap]

namespace Comment

open Text

/-- the lines of the values of one name, as they stand in a raw comment: what is on the line of the tag, and the block
behind it -/
def linesOf (name raw : Text) : List (List Text) :=
  ((tagBlocks (plainLines raw)).filter fun b => b.1 = name).map fun b => b.2.1 :: block b.2.2

theorem tidy_linesOf {name raw : Text} {ls : List Text} (h : ls ∈ linesOf name raw) : ∀ line ∈ ls, Tidy line := by
  obtain ⟨⟨tag, first, more⟩, hb, rfl⟩ := List.mem_map.1 h
  obtain ⟨l, hl, htag, hsubset⟩ := exists_tagLine (List.mem_of_mem_filter hb)
  refine List.forall_mem_cons.2 ⟨tidy_tagLine (tidy_plainLines raw l hl) htag, fun line hline => ?_⟩
  obtain ⟨k, hk, m, rfl, -⟩ := mem_block hline
  exact (tidy_plainLines raw _ (hsubset hk)).behind

/-- the lines of a value that are not empty are those that stand in the raw comment -/
theorem mem_feedLines_tagOf {name first line : Text} {more : List Text} (h : ∀ k ∈ first :: block more, Tidy k)
    (hline : line ≠ []) : line ∈ (tagOf name first more).value.feedLines ↔ line ∈ first :: block more := by
  have hown : ∀ k ∈ first :: block more, line ∈ feedLines k ↔ line = k := fun k hk => by
    rw [feedLines_of_notMem (h k hk).lineFeed_notMem, List.mem_singleton]
  have hblock : line ∈ feedLines (join "\n" (block more)) ↔ line ∈ block more := by
    rw [mem_feedLines_join hline]
    constructor
    · rintro ⟨k, hk, hmem⟩
      rwa [(hown k (List.mem_cons_of_mem _ hk)).1 hmem]
    · exact fun hmem => ⟨line, hmem, (hown line (List.mem_cons_of_mem _ hmem)).2 rfl⟩
  have hkept : ∀ p : Text, line ∈ feedLines p → (!p.isEmpty) = true := by
    intro p hmem
    rw [Bool.not_eq_true', List.isEmpty_eq_false_iff]
    rintro rfl
    exact hline (List.mem_singleton.1 hmem)
  rw [tagOf, mem_feedLines_join hline, List.mem_cons, ← hown first List.mem_cons_self, ← hblock]
  constructor
  · rintro ⟨p, hp, hmem⟩
    rcases List.mem_cons.1 (List.mem_of_mem_filter hp) with rfl | hp
    · exact .inl hmem
    · rw [List.mem_singleton.1 hp] at hmem
      exact .inr hmem
  · rintro (hmem | hmem)
    · exact ⟨first, List.mem_filter.2 ⟨List.mem_cons_self, hkept _ hmem⟩, hmem⟩
    · exact ⟨_, List.mem_filter.2 ⟨List.mem_cons_of_mem _ List.mem_cons_self, hkept _ hmem⟩, hmem⟩

theorem values_ofRaw (name raw : Text) : (ofRaw raw).values name =
    ((tagBlocks (plainLines raw)).filter fun b => b.1 = name).map fun b => (tagOf b.1 b.2.1 b.2.2).value := by
  have hname : (fun t : Tag => decide (t.name = name)) ∘ (fun b : Text × Text × List Text => tagOf b.1 b.2.1 b.2.2) =
      fun b => decide (b.1 = name) := rfl
  rw [values, ofRaw, List.filter_map, List.map_map, hname]
  rfl

/-- what holds for the empty line holds for all lines of the values exactly when it holds for those in the raw comment -/
theorem forall_values_iff {P : Text → Prop} (hP : P []) (name raw : Text) :
    (∀ v ∈ (ofRaw raw).values name, ∀ line ∈ v.feedLines, P line) ↔ ∀ ls ∈ linesOf name raw, ∀ line ∈ ls, P line := by
  have htidy : ∀ ls ∈ linesOf name raw, ∀ line ∈ ls, Tidy line := fun _ => tidy_linesOf
  rw [linesOf, List.forall_mem_map] at htidy ⊢
  rw [values_ofRaw, List.forall_mem_map]
  -- an empty line may come and go where a value has no line of its own, or no block behind it
  refine forall₂_congr fun b hb => forall_congr' fun line => ?_
  by_cases hne : line = []
  · exact iff_of_true (fun _ => hne ▸ hP) fun _ => hne ▸ hP
  · rw [mem_feedLines_tagOf (htidy b hb) hne]

end Comment

namespace Markdown

/-- no line of an example ends its block exactly when no line that it has in the raw comment is a fence -/
theorem closes_values_iff (raw : Text) :
    (∀ v ∈ (Comment.ofRaw raw).values exampleTag, ∀ line ∈ v.feedLines, closes 3 line = false) ↔
      ∀ ls ∈ Comment.linesOf exampleTag raw, ∀ line ∈ ls, ¬ IsFence line := by
  rw [Comment.forall_values_iff (P := fun line => closes 3 line = false) (by decide)]
  refine forall₂_congr fun ls hls => forall₂_congr fun line hline => ?_
  rw [← closes_iff (Comment.tidy_linesOf hls line hline), Bool.not_eq_true]

/-- **Examples as blocks of code**, for every supported document with a comment that was read from a raw one. Its section is
made, unless the definition that it is to show has no text. Between the other parts the examples stand in order, each
between two fences. Read from outside of any block they come out as they are, and what stands behind them comes out as by
itself, exactly when no line of theirs ends a block; and these are the lines on which nothing but three or more backticks
stands in the raw comment, behind the name of the tag or below it at most three blanks to the right of the margin. -/
theorem examples_stay_in_blocks_iff {raw : Option Text} {d : RuleDoc} (hd : d.comment = Comment.ofRaw? raw)
    (hsupported : (Entry.doc d).Supported) (o : Options) (m : Mapping) :
    (∃ u, d.shownDeclaration o = .error u ∧ formatRule o (.doc d) m = .error (.unprintable u)) ∨
      ∃ t kind declaration references, formatRule o (.doc d) m = .ok t ∧ (Entry.doc d).kindLabel = .ok kind ∧
        d.shownDeclaration o = .ok declaration ∧ (Entry.doc d).resolve m = .ok references ∧
        t.feedLines = (frontParts d kind declaration).flatMap Text.feedLines ++
          ((d.comment.values exampleTag).flatMap exampleLines ++ (backParts d m references).flatMap Text.feedLines) ∧
        ((∀ v ∈ d.comment.values exampleTag, ∀ line ∈ v.feedLines, closes 3 line = false) ↔
          ∀ ls ∈ Comment.linesOf exampleTag (raw.getD []), ∀ line ∈ ls, ¬ IsFence line) ∧
        (blocks none ((d.comment.values exampleTag).flatMap exampleLines ++
            (backParts d m references).flatMap Text.feedLines) =
          (d.comment.values exampleTag).map Text.feedLines ++ blocks none ((backParts d m references).flatMap Text.feedLines) ↔
          ∀ ls ∈ Comment.linesOf exampleTag (raw.getD []), ∀ line ∈ ls, ¬ IsFence line) := by
  have hraw : d.comment = Comment.ofRaw (raw.getD []) := by
    rw [hd]
    cases raw with
    | none => decide
    | some raw => rfl
  have hlines : (∀ v ∈ d.comment.values exampleTag, ∀ line ∈ v.feedLines, closes 3 line = false) ↔
      ∀ ls ∈ Comment.linesOf exampleTag (raw.getD []), ∀ line ∈ ls, ¬ IsFence line := hraw ▸ closes_values_iff _
  obtain ⟨kind, hkind⟩ := Entry.exists_kindLabel hsupported
  obtain ⟨references, hreferences⟩ : ∃ references, (Entry.doc d).resolve m = .ok references :=
    ⟨_, by rw [Entry.resolve, references_doc hsupported]⟩
  cases hdeclaration : d.shownDeclaration o with
  | error u => exact .inl ⟨u, rfl, by simp only [formatRule, Entry.formatted, hkind, hreferences, hdeclaration]⟩
  | ok declaration =>
    refine .inr ⟨ruleSection d m kind declaration references, kind, declaration, references, ?_, hkind, rfl, hreferences,
      feedLines_ruleSection d m kind declaration references, hlines, (blocks_examples_iff _ _).trans hlines⟩
    simp only [formatRule, Entry.formatted, hkind, hreferences, hdeclaration]

/-- the document of a rule without a definition -/
def bareDoc (raw : Text) : RuleDoc := .ofRule 0 ⟨⟨.parser false [], "A", none, some raw, none, none⟩, .declared 0 0⟩

theorem comment_bareDoc (raw : Text) : (bareDoc raw).comment = Comment.ofRaw? (some raw) := rfl

/-- an example with backticks behind four blanks -/
def indentedText : Text := "/** @example\n * a\n *     ```\n * b\n */"

/-- backticks behind four blanks are a line of their example -/
theorem indented_backticks_stay_in_block : ∃ t front, formatRule .standard (.doc (bareDoc indentedText)) [] = .ok t ∧
    t.feedLines = front ++ exampleLines "a\n    ```\nb" ∧
    blocks none (exampleLines "a\n    ```\nb") = [[Text.ofString "a", Text.ofString "    ```", Text.ofString "b"]] := by
  have hvalues : (bareDoc indentedText).comment.values exampleTag = [Text.ofString "a\n    ```\nb"] := by decide
  have hback : backParts (bareDoc indentedText) [] [] = [] := by decide
  rcases examples_stay_in_blocks_iff (comment_bareDoc indentedText) (by decide) .standard [] with
    ⟨u, hu, -⟩ | ⟨t, kind, declaration, references, ht, -, -, hreferences, hshown, hclosed, hblocks⟩
  · cases hu
  · obtain rfl : [] = references := Except.ok.inj hreferences
    have hunclosed : ∀ v ∈ (bareDoc indentedText).comment.values exampleTag, ∀ line ∈ v.feedLines, closes 3 line = false := by
      rw [hvalues]
      decide
    have hread := hblocks.2 (hclosed.1 hunclosed)
    rw [hvalues, hback, List.flatMap_singleton, List.flatMap_nil, List.append_nil] at hshown hread
    exact ⟨t, _, ht, hshown, hread.trans (by decide)⟩

/-- three backticks on a line of an example end its block, and those behind the example open another -/
theorem fence_in_example_ends_block : ∃ t, formatRule .standard (.doc (bareDoc "/** @example x\n```\ny */")) [] = .ok t ∧
    (bareDoc "/** @example x\n```\ny */").comment.values exampleTag = [Text.ofString "x\n```\ny"] ∧
    blocks none t.feedLines = [[Text.ofString "x"], [[]]] := by
  refine ⟨_, rfl, ?_, ?_⟩
  · decide +kernel
  · decide +kernel

end Markdown

end Rulebook
