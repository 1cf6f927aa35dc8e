/-
Lines, counted in two ways. Positions are counted by line feeds, and `feedLines` cuts a text there: into one line more
than there are line feeds. The lines that are shown with a message are cut at every break there is, and a text that ends
in a break has no empty line behind it.

The two agree on a line as long as nothing up to its end breaks a line but line feeds, with a return before them or not;
only an empty line at the very end is missing (`lines_getElem?`). So they agree on all texts without stranger breaks,
and each of these makes every later line a different one.
-/
import Rulebook.Proofs.Directory

namespace Rulebook.Text

/-! ## Lines between line feeds -/

/-- the lines of a text as positions count them: between line feeds, a return at the end included -/
def feedLines (t : Text) : List Text := splitOn (CodePoint.ofChar '\n') t

/-- a line without the return that ends it together with a line feed -/
def withoutReturn (line : Text) : Text :=
  if line.getLast? = some (CodePoint.ofChar '\r') then line.dropLast else line

theorem feedLines_append_lineFeed (s t : Text) :
    feedLines (s ++ CodePoint.ofChar '\n' :: t) = feedLines s ++ feedLines t := by
  simp only [feedLines, splitOn_eq]
  exact List.splitOn_append_cons_self s t

theorem feedLines_of_notMem {t : Text} (h : CodePoint.ofChar '\n' ∉ t) : feedLines t = [t] := by
  rw [feedLines, splitOn_eq]
  exact List.splitOn_eq_singleton h

/-- a text is one line, or a line with a line feed and more lines behind it -/
theorem line_or_more (t : Text) :
    CodePoint.ofChar '\n' ∉ t ∨
      ∃ line rest, t = line ++ CodePoint.ofChar '\n' :: rest ∧ CodePoint.ofChar '\n' ∉ line := by
  by_cases h : CodePoint.ofChar '\n' ∈ t
  · exact .inr (List.eq_append_cons_of_mem h)
  · exact .inl h

/-- induction over the lines between line feeds -/
theorem line_induction {P : Text → Prop} (last : ∀ line, CodePoint.ofChar '\n' ∉ line → P line)
    (more : ∀ line rest, CodePoint.ofChar '\n' ∉ line → P rest → P (line ++ CodePoint.ofChar '\n' :: rest)) (t : Text) :
    P t := by
  induction hlen : t.length using Nat.strong_induction_on generalizing t with
  | _ len ih =>
    subst hlen
    rcases line_or_more t with h | ⟨line, rest, rfl, hline⟩
    · exact last t h
    · refine more line rest hline (ih rest.length ?_ rest rfl)
      simp only [List.length_append, List.length_cons]
      omega

theorem length_feedLines (t : Text) : (feedLines t).length = occurrences (CodePoint.ofChar '\n') t + 1 := by
  induction t using line_induction with
  | last line hline => rw [feedLines_of_notMem hline, occurrences, List.count_eq_zero_of_not_mem hline]; rfl
  | more line rest hline ih =>
    rw [feedLines_append_lineFeed, List.length_append, ih, feedLines_of_notMem hline, occurrences, occurrences,
      List.count_append, List.count_eq_zero_of_not_mem hline, List.count_cons_self, List.length_singleton]
    omega

/-- lines that are put together with line feeds are cut apart again -/
theorem feedLines_join {ls : List Text} (h : ∀ l ∈ ls, CodePoint.ofChar '\n' ∉ l) (hne : ls ≠ []) :
    feedLines (join "\n" ls) = ls := by
  rw [feedLines, splitOn_eq]
  exact List.splitOn_intercalate _ h hne

/-- a line feed after each of some lines but the last -/
theorem join_injective {ls ks : List Text} (hls : ∀ l ∈ ls, CodePoint.ofChar '\n' ∉ l) (hne : ls ≠ [])
    (hks : ∀ k ∈ ks, CodePoint.ofChar '\n' ∉ k) (hne' : ks ≠ []) (h : join "\n" ls = join "\n" ks) : ls = ks := by
  rw [← feedLines_join hls hne, h, feedLines_join hks hne']

/-- a line with a return at its end, or one without -/
theorem withoutReturn_or (line : Text) :
    line = withoutReturn line ∨ line = withoutReturn line ++ [CodePoint.ofChar '\r'] := by
  unfold withoutReturn
  split
  · next h => exact .inr (List.dropLast_append_getLast? _ h).symm
  · exact .inl rfl

/-! ## Lines between all breaks -/

theorem lineFeed_isLineBreak : (CodePoint.ofChar '\n').isLineBreak = true := by decide

theorem pushFirst_ne_nil (c : CodePoint) (ls : List (Text × Text)) : pushFirst c ls ≠ [] := by
  cases ls with
  | nil => exact List.cons_ne_nil _ _
  | cons line more => exact List.cons_ne_nil _ _

theorem cutLines_ne_nil {t : Text} (h : t ≠ []) : cutLines t ≠ [] := by
  fun_cases cutLines t with
  | case1 => exact absurd rfl h
  | case2 => exact List.cons_ne_nil _ _
  | case3 => exact List.cons_ne_nil _ _
  | case4 => exact List.cons_ne_nil _ _
  | case5 => exact List.cons_ne_nil _ _
  | case6 => exact pushFirst_ne_nil _ _

/-- no line holds a break -/
theorem plain_of_mem_cutLines (t : Text) : ∀ p ∈ cutLines t, ∀ c ∈ p.1, c.isLineBreak = false := by
  have hpush : ∀ {d : CodePoint} {ls : List (Text × Text)}, d.isLineBreak = false →
      (∀ q ∈ ls, ∀ c ∈ q.1, c.isLineBreak = false) → ∀ q ∈ pushFirst d ls, ∀ c ∈ q.1, c.isLineBreak = false := by
    intro d ls hd hls
    cases ls with
    | nil => simpa [pushFirst] using hd
    | cons line more =>
      obtain ⟨hline, hmore⟩ := List.forall_mem_cons.1 hls
      exact List.forall_mem_cons.2 ⟨List.forall_mem_cons.2 ⟨hd, hline⟩, hmore⟩
  fun_induction cutLines t with
  | case1 => exact List.forall_mem_nil _
  | case2 => simp
  | case3 c hc => simpa using hc
  | case4 c d rest _ ih => exact List.forall_mem_cons.2 ⟨List.forall_mem_nil _, ih⟩
  | case5 c d rest _ _ ih => exact List.forall_mem_cons.2 ⟨List.forall_mem_nil _, ih⟩
  | case6 c d rest _ hc ih => exact hpush (by simpa using hc) ih

theorem lineFeed_notMem_of_mem_lines {t line : Text} (h : line ∈ lines t) : CodePoint.ofChar '\n' ∉ line := by
  obtain ⟨p, hp, rfl⟩ := List.mem_map.1 h
  intro hmem
  exact Bool.false_ne_true ((plain_of_mem_cutLines t p hp _ hmem).symm.trans lineFeed_isLineBreak)

/-- a line that all breaks cut ends in no return -/
theorem withoutReturn_of_mem_lines {t line : Text} (h : line ∈ lines t) : withoutReturn line = line := by
  obtain ⟨p, hp, rfl⟩ := List.mem_map.1 h
  refine (withoutReturn_or p.1).elim Eq.symm fun hreturn => ?_
  have hmem : CodePoint.ofChar '\r' ∈ p.1 := by
    rw [hreturn]
    exact List.mem_append_right _ List.mem_cons_self
  exact absurd (plain_of_mem_cutLines t p hp _ hmem) (by decide)

theorem cutLines_cons_plain {c : CodePoint} (hc : c.isLineBreak = false) {t : Text} (ht : t ≠ []) :
    cutLines (c :: t) = pushFirst c (cutLines t) := by
  have hreturn : c ≠ CodePoint.ofChar '\r' := by
    rintro rfl
    exact absurd hc (by decide)
  cases t with
  | nil => exact absurd rfl ht
  | cons d rest => simp [cutLines, hreturn, hc]

/-- what stands in front of a break belongs to its line -/
theorem cutLines_append {line t stop : Text} {more : List (Text × Text)} (hline : ∀ c ∈ line, c.isLineBreak = false)
    (ht : cutLines t = ([], stop) :: more) : cutLines (line ++ t) = (line, stop) :: more := by
  have hne : t ≠ [] := by
    rintro rfl
    cases ht
  induction line with
  | nil => exact ht
  | cons c line ih =>
    obtain ⟨hc, hmore⟩ := List.forall_mem_cons.1 hline
    rw [List.cons_append, cutLines_cons_plain hc (List.append_ne_nil_of_right_ne_nil line hne), ih hmore]
    rfl

theorem cutLines_lineFeed (t : Text) :
    cutLines (CodePoint.ofChar '\n' :: t) = ([], [CodePoint.ofChar '\n']) :: cutLines t := by
  cases t with
  | nil => rfl
  | cons d rest => rfl

theorem cutLines_return_lineFeed (t : Text) :
    cutLines (CodePoint.ofChar '\r' :: CodePoint.ofChar '\n' :: t) =
      ([], [CodePoint.ofChar '\r', CodePoint.ofChar '\n']) :: cutLines t := rfl

theorem cutLines_plain {line : Text} (hline : ∀ c ∈ line, c.isLineBreak = false) (hne : line ≠ []) :
    cutLines line = [(line, [])] := by
  induction line with
  | nil => exact absurd rfl hne
  | cons c line ih =>
    obtain ⟨hc, hmore⟩ := List.forall_mem_cons.1 hline
    cases line with
    | nil => simp [cutLines, hc]
    | cons d line =>
      rw [cutLines_cons_plain hc (List.cons_ne_nil d line), ih hmore (List.cons_ne_nil d line)]
      rfl

/-- a line that ends in a line feed, with a return before it or not, is one of the lines -/
theorem lines_append_lineFeed {line : Text} (hline : ∀ c ∈ withoutReturn line, c.isLineBreak = false) (t : Text) :
    lines (line ++ CodePoint.ofChar '\n' :: t) = withoutReturn line :: lines t := by
  rcases withoutReturn_or line with h | h
  · rw [lines, congrArg (· ++ CodePoint.ofChar '\n' :: t) h, cutLines_append hline (cutLines_lineFeed t)]
    rfl
  · rw [lines, congrArg (· ++ CodePoint.ofChar '\n' :: t) h, List.append_assoc, List.singleton_append,
      cutLines_append hline (cutLines_return_lineFeed t)]
    rfl

theorem lines_last {line : Text} (hline : ∀ c ∈ withoutReturn line, c.isLineBreak = false)
    (hne : withoutReturn line ≠ []) : lines line = [withoutReturn line] := by
  rcases withoutReturn_or line with h | h
  · rw [lines, congrArg cutLines h, cutLines_plain hline hne]
    rfl
  · rw [lines, congrArg cutLines h, cutLines_append hline (rfl : cutLines [CodePoint.ofChar '\r'] = _)]
    rfl

/-- where only line feeds break lines, with returns before them or not, both ways of cutting find the same line; an
empty line at the very end is none for the second -/
theorem lines_getElem? {t line : Text} {n : Nat} (hget : (feedLines t)[n]? = some line)
    (hplain : ∀ l ∈ (feedLines t).take (n + 1), ∀ c ∈ withoutReturn l, c.isLineBreak = false)
    (hlast : withoutReturn line ≠ [] ∨ n + 1 < (feedLines t).length) : (lines t)[n]? = some (withoutReturn line) := by
  induction t using line_induction generalizing n with
  | last only honly =>
    rw [feedLines_of_notMem honly] at hget hplain hlast
    obtain ⟨rfl, rfl⟩ : n = 0 ∧ only = line := by
      cases n with
      | zero => exact ⟨rfl, by simpa using hget⟩
      | succ n => simp at hget
    rw [lines_last (hplain only (by simp)) (by simpa using hlast)]
    rfl
  | more first rest hfirst ih =>
    rw [feedLines_append_lineFeed, feedLines_of_notMem hfirst, List.singleton_append] at hget hplain hlast
    obtain ⟨hhere, hbehind⟩ := List.forall_mem_cons.1 (by simpa only [List.take_succ_cons] using hplain)
    rw [lines_append_lineFeed hhere]
    cases n with
    | zero =>
      obtain rfl : first = line := by simpa using hget
      rfl
    | succ n =>
      rw [List.getElem?_cons_succ] at hget ⊢
      exact ih hget hbehind (by simpa only [List.length_cons, Nat.add_lt_add_iff_right] using hlast)

end Rulebook.Text
