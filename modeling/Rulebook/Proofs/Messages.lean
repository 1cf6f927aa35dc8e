/-
What a message about a text points at. Below the location stand some lines of the text with their numbers, and below the
line of the place a marker (`SyntaxError.Shows`). The lines that are shown are cut at every break of a line, the numbers
count line feeds. So the message shows the line that its number means exactly when both ways of cutting find that line;
another break before it moves a different line there, and an empty line behind the last line feed is not shown at all.

The place itself is always one of the text: a fault of cutting is counted up to where it is, and a complaint is about a
token of the text or about its end.

  gutter_append_inj        a shown line tells its number and its text
  within_text              an error names a line of the text
  message_shows_line_iff   when the message shows the line it names
-/
import Rulebook.Proofs.Anchors
import Rulebook.Proofs.Complaints
import Rulebook.Proofs.Joining
import Rulebook.Proofs.LineBreaks

namespace Rulebook

open Source

namespace Place

/-! ## The lines of a message -/

theorem gutter_natCast (n : Nat) : gutter n =
    List.replicate (4 - (Text.ofNat n).length) (CodePoint.ofChar ' ') ++ (Text.ofNat n ++ Text.ofString " | ") := by
  rw [← List.append_assoc]
  rfl

/-- a number is written in digits only -/
theorem notMem_ofNat {c : Char} (hc : c.isDigit = false) (n : Nat) : CodePoint.ofChar c ∉ Text.ofNat n := by
  intro h
  obtain ⟨d, hd, heq⟩ := List.mem_map.1 h
  obtain rfl : d = c := (CodePoint.ofChar_inj d c).1 heq
  exact Bool.false_ne_true (hc.symm.trans (Nat.isDigit_of_mem_toDigits (by decide) (by decide) hd))

theorem ofNat_ne_nil (n : Nat) : Text.ofNat n ≠ [] := by
  simp [Text.ofNat]

/-- a shown line tells its number and its text: the number ends at the first blank behind it -/
theorem gutter_append_inj {n m : Nat} {a b : Text} (h : gutter n ++ a = gutter m ++ b) : n = m ∧ a = b := by
  have hnumber : ∀ (k : Nat) (t : Text),
      (gutter k ++ t).dropWhile (fun c => decide (c = CodePoint.ofChar ' ')) = Text.ofNat k ++ (" | " ++ t : Text) := by
    intro k t
    have hblanks : ∀ c ∈ List.replicate (4 - (Text.ofNat k).length) (CodePoint.ofChar ' '),
        decide (c = CodePoint.ofChar ' ') = true := fun c hc => decide_eq_true (List.eq_of_mem_replicate hc)
    rw [gutter_natCast, List.append_assoc, List.dropWhile_append_of_pos hblanks, List.append_assoc]
    obtain ⟨d, more, hd⟩ := List.exists_cons_of_ne_nil (ofNat_ne_nil k)
    have hblank : d ≠ CodePoint.ofChar ' ' := fun heq =>
      notMem_ofNat (c := ' ') rfl k (by rw [hd, heq]; exact List.mem_cons_self)
    rw [hd, List.cons_append, List.dropWhile_cons_of_neg (by simpa using hblank)]
  have hdigits : ∀ (k : Nat) (t : Text),
      (Text.ofNat k ++ (" | " ++ t : Text)).takeWhile (fun c => decide (c ≠ CodePoint.ofChar ' ')) = Text.ofNat k := by
    intro k t
    refine takeWhile_append_of_ends (fun c hc => decide_eq_true ?_) (by simp [Text.ofString])
    rintro rfl
    exact notMem_ofNat rfl k hc
  have hboth := congrArg (List.dropWhile fun c => decide (c = CodePoint.ofChar ' ')) h
  rw [hnumber, hnumber] at hboth
  have hsame := congrArg (List.takeWhile fun c => decide (c ≠ CodePoint.ofChar ' ')) hboth
  rw [hdigits, hdigits] at hsame
  obtain rfl := Text.ofNat_injective hsame
  exact ⟨rfl, List.append_cancel_left (List.append_cancel_left hboth)⟩

variable (p : Place)

theorem numberedFrom_append (k : Int) (ls ms : List Text) :
    p.numberedFrom k (ls ++ ms) = p.numberedFrom k ls ++ p.numberedFrom (k + ls.length) ms := by
  induction ls generalizing k with
  | nil => simp [numberedFrom]
  | cons l ls ih =>
    rw [List.cons_append, numberedFrom, numberedFrom, ih, List.append_assoc, List.length_cons, Nat.cast_succ,
      Int.add_assoc, Int.add_comm 1]

theorem exists_of_mem_numberedFrom {k : Int} {ls : List Text} {row : Text} (h : row ∈ p.numberedFrom k ls) :
    ∃ i line, ls[i]? = some line ∧ row ∈ p.numbered (k + (i : Nat)) line := by
  induction ls generalizing k with
  | nil => cases h
  | cons l ls ih =>
    rcases List.mem_append.1 h with hhere | hbehind
    · exact ⟨0, l, rfl, by simpa using hhere⟩
    · obtain ⟨i, line, hi, hrow⟩ := ih hbehind
      exact ⟨i + 1, line, hi, by rwa [Nat.cast_succ, Int.add_comm (i : Int), ← Int.add_assoc]⟩

/-- the marker below the line of the place -/
def marker : Text :=
  repeated ' ' ((gutter p.line).length + p.column - 1) ++ repeated '^' (max p.length 1)

theorem mem_numbered {k : Int} {line row : Text} (h : row ∈ p.numbered k line) :
    row = gutter k ++ line ∨ row = p.marker := by
  unfold numbered at h
  split at h
  · next hk => simpa [marker, hk] using h
  · exact .inl (List.mem_singleton.1 h)

theorem numbered_line (line : Text) : p.numbered p.line line = [gutter p.line ++ line, p.marker] := by
  rw [numbered, if_pos rfl, marker]

/-- the marker begins with the blanks in front of the column, so it is no line with a number -/
theorem marker_ne (hcolumn : 1 ≤ p.column) {n : Nat} (hline : p.line = n) (line : Text) :
    p.marker ≠ gutter p.line ++ line := by
  intro h
  have hbar : CodePoint.ofChar '|' ∈ gutter p.line := by
    rw [hline, gutter_natCast]
    exact List.mem_append_right _ (List.mem_append_right _ (by decide))
  have hshort : (gutter p.line).length ≤ (repeated ' ' ((gutter p.line).length + p.column - 1)).length := by
    simp only [repeated, List.length_replicate]
    omega
  have hblanks : gutter p.line <+: repeated ' ' ((gutter p.line).length + p.column - 1) :=
    List.prefix_of_prefix_length_le ⟨line, h.symm⟩ (List.prefix_append _ _) hshort
  have hblank := List.eq_of_mem_replicate (hblanks.subset hbar)
  exact absurd hblank (by decide)

theorem lineFeed_notMem_gutter (n : Nat) : CodePoint.ofChar '\n' ∉ gutter n := by
  rw [gutter_natCast]
  intro h
  rcases List.mem_append.1 h with hmem | hmem
  · exact absurd (List.eq_of_mem_replicate hmem) (by decide)
  rcases List.mem_append.1 hmem with hmem | hmem
  · exact notMem_ofNat rfl n hmem
  · exact absurd hmem (by decide)

theorem lineFeed_notMem_marker : CodePoint.ofChar '\n' ∉ p.marker := by
  intro h
  rcases List.mem_append.1 h with hmem | hmem
  · exact absurd (List.eq_of_mem_replicate hmem) (by decide)
  · exact absurd (List.eq_of_mem_replicate hmem) (by decide)

theorem lineFeed_notMem_of_mem_numberedFrom {k : Nat} {ls : List Text} (hls : ∀ l ∈ ls, CodePoint.ofChar '\n' ∉ l) :
    ∀ row ∈ p.numberedFrom k ls, CodePoint.ofChar '\n' ∉ row := by
  intro row hrow
  obtain ⟨i, line, hi, hmem⟩ := p.exists_of_mem_numberedFrom hrow
  rcases p.mem_numbered hmem with rfl | rfl
  · rw [← Nat.cast_add, List.mem_append, not_or]
    exact ⟨lineFeed_notMem_gutter _, hls line (List.mem_of_getElem? hi)⟩
  · exact p.lineFeed_notMem_marker

theorem numberedFrom_ne_nil (k : Int) {ls : List Text} (h : ls ≠ []) : p.numberedFrom k ls ≠ [] := by
  obtain ⟨l, more, rfl⟩ := List.exists_cons_of_ne_nil h
  unfold numberedFrom numbered
  split
  · exact List.cons_ne_nil _ _
  · exact List.cons_ne_nil _ _

end Place

/-! ## What a message shows -/

/-- below the location the message shows this text with the number of its place before it, and right below that a line
whose first mark stands under the column of the place -/
def SyntaxError.Shows (e : SyntaxError) (line : Text) : Prop :=
  ∃ (before behind : List Text) (marks : Text),
    let gutter := Place.gutter e.place.line
    let blanks := Place.repeated ' ' (gutter.length + e.place.column - 1)
    let rows := before ++ [gutter ++ line, blanks ++ CodePoint.ofChar '^' :: marks] ++ behind
    (∀ row ∈ rows, CodePoint.ofChar '\n' ∉ row) ∧
      e.message = e.place.location ++ "\n" ++ Text.join "\n" rows ++ "\n" ++ e.cause.message

/-- the lines around one with a given number of lines before it: two before and two after -/
def Text.window (n : Nat) (ls : List Text) : List Text := (ls.take (n + 3)).drop (n - 2)

theorem Text.window_getElem? (n : Nat) (ls : List Text) : (Text.window n ls)[n - (n - 2)]? = ls[n]? := by
  rw [Text.window, List.getElem?_drop, List.getElem?_take_of_lt (by omega)]
  congr 1
  omega

theorem Text.lineFeed_notMem_of_mem_window {n : Nat} {t : Text} : ∀ line ∈ Text.window n t.lines,
    CodePoint.ofChar '\n' ∉ line :=
  fun _ h => Text.lineFeed_notMem_of_mem_lines (List.mem_of_mem_take (List.mem_of_mem_drop h))

theorem snippetAt_eq (source : Text) (n : Nat) :
    snippetAt source ((n + 1 : Nat) : Int) = Text.join "\n" (Text.window n source.lines) := by
  have hfirst : (max 1 (((n + 1 : Nat) : Int) - 2) - 1).toNat = n - 2 := by omega
  have hlast : ¬ min (source.lines.length : Int) (((n + 1 : Nat) : Int) + 2) < 0 := by omega
  have hcount : (min (source.lines.length : Int) (((n + 1 : Nat) : Int) + 2)).toNat = min (n + 3) source.lines.length := by
    omega
  rw [snippetAt, snippetAround, hfirst, sliceTo, if_neg hlast, hcount, List.take_eq_take_min.symm, Text.window]

variable {source : Text} {n : Nat} {e : SyntaxError}

/-- a message that names a line of a text, with the lines around it -/
structure SyntaxError.Names (e : SyntaxError) (source : Text) (n : Nat) : Prop where
  line : e.place.line = ((n + 1 : Nat) : Int)
  column : 1 ≤ e.place.column
  snippet : e.place.snippet = some (snippetAt source e.place.line)

namespace SyntaxError.Names

/-- what stands below the location -/
theorem layout_eq (h : e.Names source n) (hne : snippetAt source ((n + 1 : Nat) : Int) ≠ []) :
    e.place.layout = e.place.location ++ "\n" ++
      Text.join "\n" (e.place.numberedFrom ((n - 2 + 1 : Nat) : Int) (Text.window n source.lines)) := by
  obtain ⟨c, t, ht⟩ := List.exists_cons_of_ne_nil hne
  have hsnippet : e.place.snippet = some (c :: t) := by rw [h.snippet, h.line, ht]
  have hwindow : Text.window n source.lines ≠ [] := by
    intro hnil
    rw [snippetAt_eq, hnil] at ht
    cases ht
  have hsplit : Text.splitOn (CodePoint.ofChar '\n') (c :: t) = Text.window n source.lines := by
    rw [← ht, snippetAt_eq]
    exact Text.feedLines_join Text.lineFeed_notMem_of_mem_window hwindow
  have hstart : max 1 (e.place.line - 2) = ((n - 2 + 1 : Nat) : Int) := by
    rw [h.line]
    omega
  rw [Place.layout, hsnippet]
  simp only [hsplit, hstart]

/-- a line that has the number of the place is followed by the marker -/
theorem rows_eq (h : e.Names source n) {line : Text} (hline : source.lines[n]? = some line) : ∃ before behind marks,
    e.place.numberedFrom ((n - 2 + 1 : Nat) : Int) (Text.window n source.lines) =
      before ++ [Place.gutter e.place.line ++ line, Place.repeated ' ' ((Place.gutter e.place.line).length +
        e.place.column - 1) ++ CodePoint.ofChar '^' :: marks] ++ behind := by
  rw [← Text.window_getElem?] at hline
  obtain ⟨hlt, hget⟩ := List.getElem?_eq_some_iff.1 hline
  obtain ⟨front, back, hsplit, hfront⟩ : ∃ front back, Text.window n source.lines = front ++ line :: back ∧
      front.length = n - (n - 2) := by
    refine ⟨(Text.window n source.lines).take (n - (n - 2)), (Text.window n source.lines).drop (n - (n - 2) + 1), ?_,
      List.length_take_of_le hlt.le⟩
    rw [← hget, ← List.drop_eq_getElem_cons hlt, List.take_append_drop]
  have hnumber : ((n - 2 + 1 : Nat) : Int) + (front.length : Int) = e.place.line := by
    rw [h.line, hfront]
    omega
  obtain ⟨marks, hmarks⟩ : ∃ marks, Place.repeated '^' (max e.place.length 1) = CodePoint.ofChar '^' :: marks := by
    obtain ⟨k, hk⟩ : ∃ k, (max e.place.length 1).toNat = k + 1 := ⟨(max e.place.length 1).toNat - 1, by omega⟩
    exact ⟨_, by rw [Place.repeated, hk, List.replicate_succ]⟩
  refine ⟨e.place.numberedFrom ((n - 2 + 1 : Nat) : Int) front, e.place.numberedFrom (e.place.line + 1) back, marks, ?_⟩
  rw [hsplit, Place.numberedFrom_append, hnumber, Place.numberedFrom, Place.numbered_line, Place.marker, hmarks,
    List.append_assoc]

/-- the number of a shown line tells which of the lines it is -/
theorem line_of_mem (h : e.Names source n) {line : Text} (hmem : Place.gutter e.place.line ++ line ∈
    e.place.numberedFrom ((n - 2 + 1 : Nat) : Int) (Text.window n source.lines)) : source.lines[n]? = some line := by
  obtain ⟨i, shown, hi, hrow⟩ := e.place.exists_of_mem_numberedFrom hmem
  rcases e.place.mem_numbered hrow with hline | hmarker
  · rw [h.line, ← Nat.cast_add] at hline
    obtain ⟨hnumber, rfl⟩ := Place.gutter_append_inj hline
    obtain rfl : i = n - (n - 2) := by omega
    rw [← Text.window_getElem?, hi]
  · exact absurd hmarker.symm (e.place.marker_ne h.column h.line line)

/-- a message shows the line that all breaks cut where its number is -/
theorem shows_iff (h : e.Names source n) (line : Text) :
    e.Shows line ↔ source.lines[n]? = some line ∧ snippetAt source ((n + 1 : Nat) : Int) ≠ [] := by
  have hplain := e.place.lineFeed_notMem_of_mem_numberedFrom (k := n - 2 + 1)
    (Text.lineFeed_notMem_of_mem_window (n := n) (t := source))
  constructor
  · intro hshows
    obtain ⟨before, behind, marks, hrows, hmessage⟩ := hshows
    have hlayout := List.append_cancel_right (List.append_cancel_right hmessage)
    have hne : snippetAt source ((n + 1 : Nat) : Int) ≠ [] := by
      intro hnil
      have hbare : e.place.layout = e.place.location := by
        rw [Place.layout, h.snippet, h.line, hnil]
      have hlength := congrArg List.length (hbare.symm.trans hlayout)
      simp [Text.ofString] at hlength
    have hwindow : Text.window n source.lines ≠ [] := by
      intro hnil
      exact hne (by rw [snippetAt_eq, hnil]; rfl)
    rw [h.layout_eq hne] at hlayout
    have hsame := Text.join_injective hplain (e.place.numberedFrom_ne_nil _ hwindow) hrows (by simp)
      (List.append_cancel_left hlayout)
    exact ⟨h.line_of_mem (by rw [hsame]; simp), hne⟩
  · intro hboth
    obtain ⟨hline, hne⟩ := hboth
    obtain ⟨before, behind, marks, hrows⟩ := h.rows_eq hline
    refine ⟨before, behind, marks, hrows ▸ hplain, ?_⟩
    rw [← hrows, ← h.layout_eq hne]
    rfl

end SyntaxError.Names

/-- where the line of the number is found and still nothing is shown, the text is one empty line -/
theorem lone_line_of_snippet_nil (hnil : snippetAt source ((n + 1 : Nat) : Int) = []) {line : Text}
    (hline : source.lines[n]? = some line) : n = 0 ∧ line = [] ∧ source.lines = [[]] := by
  have hwindow : Text.window n source.lines = [[]] := by
    have hne : Text.window n source.lines ≠ [] := by
      intro hempty
      rw [← Text.window_getElem?, hempty] at hline
      cases hline
    rw [← Text.feedLines_join Text.lineFeed_notMem_of_mem_window hne, ← snippetAt_eq, hnil]
    rfl
  have hhere := hline
  rw [← Text.window_getElem?, hwindow] at hhere
  obtain ⟨hzero, rfl⟩ : n - (n - 2) = 0 ∧ line = [] := by
    cases hindex : n - (n - 2) with
    | zero => exact ⟨rfl, by simpa [hindex, eq_comm] using hhere⟩
    | succ k => simp [hindex] at hhere
  obtain rfl : n = 0 := by omega
  refine ⟨rfl, rfl, ?_⟩
  have htake : source.lines.take 3 = [[]] := hwindow
  have hlength := congrArg List.length htake
  rw [List.length_take, List.length_singleton] at hlength
  rwa [List.take_of_length_le (by omega)] at htake

/-! ## Where an error points -/

theorem Mark.line_after (m : Mark) (t : Text) : (m.after t).line = m.line + Text.occurrences (CodePoint.ofChar '\n') t := by
  induction t generalizing m with
  | nil => rfl
  | cons c t ih =>
    rw [Mark.after, List.foldl_cons, ← Mark.after, ih, Mark.step, Text.occurrences, Text.occurrences, List.count_cons]
    split
    · next h => simp [h]; omega
    · next h => simp [h]

theorem Mark.column_after {m : Mark} (h : 1 ≤ m.column) (t : Text) : 1 ≤ (m.after t).column := by
  induction t generalizing m with
  | nil => exact h
  | cons c t ih =>
    refine ih ?_
    unfold Mark.step
    split
    · exact Nat.le_refl 1
    · exact Nat.le_succ_of_le h

/-- a position behind another one, no more lines below it than there are line feeds in a text, and in some column -/
structure Mark.Near (m : Mark) (t : Text) (line column : Nat) : Prop where
  below : m.line ≤ line
  above : line ≤ m.line + Text.occurrences (CodePoint.ofChar '\n') t
  column : 1 ≤ column

theorem Mark.near_afterPiece {m : Mark} (h : 1 ≤ m.column) (p : Piece) :
    m.Near p.text (m.afterPiece p).line (m.afterPiece p).column := by
  unfold Mark.afterPiece
  split
  · exact ⟨Nat.le_refl _, Nat.le_add_right _ _, Nat.le_add_right_of_le h⟩
  · exact ⟨(m.line_after p.text).symm ▸ Nat.le_add_right _ _, (m.line_after p.text).le, Mark.column_after h p.text⟩

/-- tokens stand near where their pieces begin, and so does the end of the text -/
theorem Lexed.near_ofPieces {m : Mark} (h : 1 ≤ m.column) (ps : List Piece) :
    ∀ t ∈ (Lexed.ofPieces m ps).all, m.Near (ps.flatMap Piece.text) t.line t.column := by
  induction ps generalizing m with
  | nil =>
    intro t ht
    obtain rfl := List.mem_singleton.1 ht
    exact ⟨Nat.le_refl _, Nat.le_add_right _ _, h⟩
  | cons p ps ih =>
    have hpiece := Mark.near_afterPiece h p
    have hcount : Text.occurrences (CodePoint.ofChar '\n') ((p :: ps).flatMap Piece.text) =
        Text.occurrences (CodePoint.ofChar '\n') p.text +
          Text.occurrences (CodePoint.ofChar '\n') (ps.flatMap Piece.text) := by
      rw [List.flatMap_cons, Text.occurrences, List.count_append]
      rfl
    have hbehind : ∀ t ∈ (Lexed.ofPieces (m.afterPiece p) ps).all,
        m.Near ((p :: ps).flatMap Piece.text) t.line t.column := by
      intro t ht
      obtain ⟨hbelow, habove, hcolumn⟩ := ih hpiece.column t ht
      exact ⟨hpiece.below.trans hbelow, by have := hpiece.above; omega, hcolumn⟩
    intro t ht
    unfold Lexed.ofPieces at ht
    cases hp : p.token with
    | none => exact hbehind t (by simpa only [hp] using ht)
    | some k =>
      simp only [hp, Lexed.all, List.cons_append] at ht
      rcases List.mem_cons.1 ht with rfl | ht
      · exact ⟨Nat.le_refl _, Nat.le_add_right _ _, h⟩
      · exact hbehind t ht

/-- a place near the beginning of a text is in one of its lines -/
theorem SyntaxError.names_of_near {line column : Nat} (h : Mark.start.Near source line column)
    (hline : e.place.line = line) (hcolumn : e.place.column = column)
    (hsnippet : e.place.snippet = some (snippetAt source e.place.line)) :
    ∃ n shown, e.Names source n ∧ source.feedLines[n]? = some shown := by
  obtain ⟨hbelow, habove, hpositive⟩ := h
  simp only [Mark.start] at hbelow habove
  have hlt : line - 1 < source.feedLines.length := by
    rw [Text.length_feedLines]
    omega
  refine ⟨line - 1, _, ⟨?_, ?_, hsnippet⟩, List.getElem?_eq_getElem hlt⟩
  · rw [hline, Nat.sub_add_cancel hbelow]
  · rw [hcolumn]
    exact_mod_cast hpositive

/-- the place of a fault is counted up to the fault -/
theorem names_of_ofSource {file : Path} (h : Lexed.ofSource file source = .error e) :
    ∃ n line, e.Names source n ∧ source.feedLines[n]? = some line := by
  unfold Lexed.ofSource at h
  split at h
  · cases h
  · next fault _ =>
    cases h
    have hcount : Text.occurrences (CodePoint.ofChar '\n') (source.take (source.length - fault.left)) ≤
        Text.occurrences (CodePoint.ofChar '\n') source := (List.take_sublist _ _).count_le _
    have hnear : Mark.start.Near source (Mark.start.after (source.take (source.length - fault.left))).line
        (Mark.start.after (source.take (source.length - fault.left))).column := by
      refine ⟨?_, ?_, Mark.column_after (Nat.le_refl 1) _⟩
      · rw [Mark.line_after]
        exact Nat.le_add_right _ _
      · rw [Mark.line_after]
        exact Nat.add_le_add_left hcount _
    exact SyntaxError.names_of_near hnear rfl rfl rfl

/-- a complaint about the words of a text is about one of its tokens or about its end -/
theorem names_of_errorOf {file : Path} {lexed : Lexed} {fault : Fault} (hsource : Lexed.ofSource file source = .ok lexed)
    (hwords : WrittenGrammar.ofWords (wordsOf lexed.tokens) = .error fault) :
    ∃ n line, (WrittenGrammar.errorOf file source lexed fault).Names source n ∧ source.feedLines[n]? = some line := by
  obtain ⟨ps, hcut, rfl⟩ := Lexed.ofSource_eq_ok_iff.1 hsource
  have hfound : fault.found.getD (Lexed.ofPieces Mark.start ps).stopToken ∈ (Lexed.ofPieces Mark.start ps).all := by
    cases hf : fault.found with
    | none => exact List.mem_append_right _ List.mem_cons_self
    | some t =>
      obtain ⟨w, hw, rfl⟩ := fault_found hwords hf
      exact List.mem_append_left _ (mem_of_mem_wordsBehind hw)
  have hnear := Lexed.near_ofPieces (m := Mark.start) (Nat.le_refl 1) ps _ hfound
  rw [Piece.flatMap_text_of_cut hcut] at hnear
  exact SyntaxError.names_of_near hnear rfl rfl rfl

/-- an error names a line of the text -/
theorem names_of_ofText {file : Path} (h : WrittenGrammar.ofText file source = .error e) :
    ∃ n line, e.Names source n ∧ source.feedLines[n]? = some line := by
  unfold WrittenGrammar.ofText at h
  split at h
  · next hsource =>
    cases h
    exact names_of_ofSource hsource
  · next hsource =>
    split at h
    · next hwords =>
      cases h
      exact names_of_errorOf hsource hwords
    · cases h

/-- a text that is nothing but the break of a line is complained about at its end, in the second line -/
theorem line_of_lone_break {file : Path} {line : Text} (hline : line = [] ∨ line = [CodePoint.ofChar '\r'])
    (h : WrittenGrammar.ofText file (line ++ [CodePoint.ofChar '\n']) = .error e) : e.place.line = 2 := by
  have hlexed : Lexed.ofSource file (line ++ [CodePoint.ofChar '\n']) = .ok ⟨[], ⟨2, 1⟩⟩ := by
    rcases hline with rfl | rfl
    · cbv
    · cbv
  rw [WrittenGrammar.ofText, hlexed] at h
  cases h
  rfl

/-- where the line is found that the number means, lines are shown; a text of a single return is left out -/
theorem snippet_ne_nil {file : Path} (h : WrittenGrammar.ofText file source = .error e) (hnames : e.Names source n)
    {line : Text} (hline : source.feedLines[n]? = some line) (hfound : source.lines[n]? = some line.withoutReturn)
    (hreturn : line = [CodePoint.ofChar '\r'] → n + 1 < source.feedLines.length) :
    snippetAt source ((n + 1 : Nat) : Int) ≠ [] := by
  intro hnil
  obtain ⟨rfl, hempty, hlines⟩ := lone_line_of_snippet_nil hnil hfound
  have hbreak : line = [] ∨ line = [CodePoint.ofChar '\r'] := by
    rcases Text.withoutReturn_or line with h | h
    · exact .inl (h.trans hempty)
    · exact .inr (by rw [h, hempty]; rfl)
  rcases Text.line_or_more source with hone | ⟨first, rest, rfl, hfirst⟩
  · rw [Text.feedLines_of_notMem hone] at hline hreturn
    obtain rfl : source = line := by simpa using hline
    rcases hbreak with rfl | rfl
    · cases hlines
    · exact absurd (hreturn rfl) (by decide)
  · -- the text is one break of a line, and an error in it is in the second line
    rw [Text.feedLines_append_lineFeed, Text.feedLines_of_notMem hfirst] at hline
    obtain rfl : first = line := by simpa using hline
    rw [Text.lines_append_lineFeed (by simp [hempty]), hempty] at hlines
    obtain rfl : rest = [] := by
      by_contra hrest
      exact Text.cutLines_ne_nil hrest (List.map_eq_nil_iff.1 (List.cons.inj hlines).2)
    have htwo := line_of_lone_break hbreak h
    rw [hnames.line] at htwo
    exact absurd htwo (by decide)

/-- **A message shows the line it names exactly when that line is found both ways**: for every text and every error of
cutting or reading it, the error names a line of the text, counted by line feeds, and a column. The message shows that
line with its number, and the marker right below it, if and only if the line with this number is the same when the text
is cut at every break of a line. That is so where up to the end of the line nothing but line feeds breaks lines, with
returns before them or not, and the line is not an empty one behind the last line feed. -/
theorem message_shows_line_iff {file : Path} (h : WrittenGrammar.ofText file source = .error e) :
    ∃ (n : Nat) (line : Text), e.place.line = ((n + 1 : Nat) : Int) ∧ 1 ≤ e.place.column ∧
      source.feedLines[n]? = some line ∧
      (e.Shows line ↔ source.lines[n]? = some line) ∧
      ((∀ l ∈ source.feedLines.take (n + 1), ∀ c ∈ l.withoutReturn, c.isLineBreak = false) →
        line.withoutReturn ≠ [] ∨ n + 1 < source.feedLines.length → e.Shows line.withoutReturn) := by
  obtain ⟨n, line, hnames, hline⟩ := names_of_ofText h
  refine ⟨n, line, hnames.line, hnames.column, hline, ?_, ?_⟩
  · rw [hnames.shows_iff, and_iff_left_iff_imp]
    intro hfound
    have hsame := Text.withoutReturn_of_mem_lines (List.mem_of_getElem? hfound)
    refine snippet_ne_nil h hnames hline (by rw [hsame, hfound]) ?_
    rintro rfl
    exact absurd hsame (by decide)
  · intro hplain hlast
    have hfound := Text.lines_getElem? hline hplain hlast
    refine (hnames.shows_iff _).2 ⟨hfound, snippet_ne_nil h hnames hline hfound ?_⟩
    rintro rfl
    exact hlast.resolve_left (by decide)

/-- a comment, and a line below it that is complained about; a return stands before the line feed -/
theorem line_below_comment_is_shown : ∃ e, WrittenGrammar.ofText "a" (Text.ofString "// b\r\nC 'd'") = .error e ∧
    e.place.line = 2 ∧ e.Shows (Text.ofString "C 'd'") := by
  have hlexed : Lexed.ofSource "a" (Text.ofString "// b\r\nC 'd'") =
      .ok ⟨[⟨.name, "C", 2, 1, 1⟩, ⟨.literal, "d", 2, 3, 3⟩], ⟨2, 6⟩⟩ := by cbv
  have herror : WrittenGrammar.ofText "a" (Text.ofString "// b\r\nC 'd'") = .error ⟨.misplaced (.expectedWord "grammar")
      ⟨.name, "C", 2, 1, 1⟩, ⟨"a", 2, 1, 1, some (snippetAt (Text.ofString "// b\r\nC 'd'") 2), none⟩⟩ := by
    rw [WrittenGrammar.ofText, hlexed]
    rfl
  obtain ⟨n, line, hnumber, -, hline, -, hshows⟩ := message_shows_line_iff herror
  obtain rfl : n = 1 := by
    have htwo : ((n + 1 : Nat) : Int) = 2 := hnumber.symm
    omega
  obtain rfl : Text.ofString "C 'd'" = line := Option.some.inj hline
  exact ⟨_, herror, rfl, hshows (by decide) (by decide)⟩

/-- a comment with a form feed in it, and a line below that is complained about -/
def shiftedText : Text := "// \x0c\nA 'b'"

/-- the form feed ends a line that no position counts, so the message shows an empty line where the fault is in another
one; behind a last line feed it shows no line at all -/
theorem other_line_is_shown :
    (∃ e, WrittenGrammar.ofText "a" shiftedText = .error e ∧ e.place.line = 2 ∧
      shiftedText.feedLines[1]? = some (Text.ofString "A 'b'") ∧ ¬ e.Shows (Text.ofString "A 'b'") ∧ e.Shows []) ∧
    ∃ e, WrittenGrammar.ofText "a" (Text.ofString "// b\n") = .error e ∧ e.place.line = 2 ∧
      (Text.ofString "// b\n").feedLines[1]? = some [] ∧ ¬ e.Shows [] := by
  constructor
  · have hlexed : Lexed.ofSource "a" shiftedText =
        .ok ⟨[⟨.name, "A", 2, 1, 1⟩, ⟨.literal, "b", 2, 3, 3⟩], ⟨2, 6⟩⟩ := by cbv
    have herror : WrittenGrammar.ofText "a" shiftedText = .error ⟨.misplaced (.expectedWord "grammar")
        ⟨.name, "A", 2, 1, 1⟩, ⟨"a", 2, 1, 1, some (snippetAt shiftedText 2), none⟩⟩ := by
      rw [WrittenGrammar.ofText, hlexed]
      rfl
    refine ⟨_, herror, rfl, by decide, ?_⟩
    have hnames : SyntaxError.Names ⟨.misplaced (.expectedWord "grammar") ⟨.name, "A", 2, 1, 1⟩,
        ⟨"a", 2, 1, 1, some (snippetAt shiftedText 2), none⟩⟩ shiftedText 1 := ⟨rfl, by decide, rfl⟩
    rw [hnames.shows_iff, hnames.shows_iff]
    decide
  · have hlexed : Lexed.ofSource "a" (Text.ofString "// b\n") = .ok ⟨[], ⟨2, 1⟩⟩ := by cbv
    have herror : WrittenGrammar.ofText "a" (Text.ofString "// b\n") = .error ⟨.misplaced (.expectedWord "grammar")
        ⟨.stop, [], 2, 1, 0⟩, ⟨"a", 2, 1, 0, some (snippetAt (Text.ofString "// b\n") 2), none⟩⟩ := by
      rw [WrittenGrammar.ofText, hlexed]
      rfl
    refine ⟨_, herror, rfl, by decide, ?_⟩
    have hnames : SyntaxError.Names ⟨.misplaced (.expectedWord "grammar") ⟨.stop, [], 2, 1, 0⟩,
        ⟨"a", 2, 1, 0, some (snippetAt (Text.ofString "// b\n") 2), none⟩⟩ (Text.ofString "// b\n") 1 :=
      ⟨rfl, by decide, rfl⟩
    rw [hnames.shows_iff]
    decide

end Rulebook
