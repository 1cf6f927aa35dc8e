/-
String literals stretch by stretch. Reading takes one code point, an escape of two or an escape of six at a time
(`Stretch`), until it comes to where it ends, well or not (`Stops`). Every text behind an opening quote is parted like
that (`exists_parted`), so the outcome of reading a literal is said by its stretches and by the place where they end.

What stands behind a literal says nothing about it, with one exception. Behind a backslash, `u` with fewer than four code
points up to the end of the text stands for itself, and with more behind it is an escape; but then the closing quote is
one of the four, and no number has a quote in it (`escapedPoint?_of_foreign`), so the longer text is refused
(`read_append`).
-/
import Rulebook.Proofs.Cutting

namespace Rulebook

/-! ## Escapes in front of a quote -/

/-- a code point that no number in base sixteen holds: no digit of any script, no white space around it, no sign, no
underscore and no `x` -/
structure CodePoint.Foreign (c : CodePoint) : Prop where
  hexValue?_eq : c.hexValue? = none
  digitValue?_eq : c.digitValue? = none
  not_blank : Text.aroundNumber c = false
  no_mark : ∀ m ∈ ['-', '+', '_', 'x', 'X'], c ≠ CodePoint.ofChar m

/-- a code point that opens and closes literals -/
def CodePoint.IsQuote (c : CodePoint) : Prop := c = CodePoint.ofChar '\'' ∨ c = CodePoint.ofChar '"'

namespace CodePoint.IsQuote

variable {q : CodePoint}

theorem foreign (h : q.IsQuote) : q.Foreign := by
  rcases h with rfl | rfl
  · exact ⟨by decide, by decide, by decide, by simp [CodePoint.ofChar_inj]⟩
  · exact ⟨by decide, by decide, by decide, by simp [CodePoint.ofChar_inj]⟩

theorem ne_ofChar (h : q.IsQuote) {c : Char} (hc : c ≠ '\'' ∧ c ≠ '"') : q ≠ CodePoint.ofChar c := by
  rcases h with rfl | rfl
  · exact fun heq => hc.1 ((CodePoint.ofChar_inj ..).1 heq).symm
  · exact fun heq => hc.2 ((CodePoint.ofChar_inj ..).1 heq).symm

end CodePoint.IsQuote

namespace Text

variable {q : CodePoint}

theorem digits16?_of_foreign (hq : q.Foreign) {t : Text} (h : q ∈ t) (read : Nat) : digits16? read t = none := by
  fun_induction digits16? read t with
  | case1 => cases h
  | case2 read c rest d hd ih =>
    refine ih ((List.mem_cons.1 h).resolve_left ?_)
    rintro rfl
    simp [hq.hexValue?_eq] at hd
  | case3 => rfl
  | case4 read e more d hd hunder ih =>
    have hmem := (List.mem_cons.1 h).resolve_left (hq.no_mark '_' (by decide))
    refine ih ((List.mem_cons.1 hmem).resolve_left ?_)
    rintro rfl
    simp [hq.hexValue?_eq] at hd
  | case5 => rfl
  | case6 => rfl

theorem magnitude16?_of_foreign (hq : q.Foreign) {t : Text} (h : q ∈ t) : magnitude16? t = none := by
  cases t with
  | nil => rfl
  | cons c rest =>
    rw [magnitude16?, Option.bind_eq_none_iff]
    intro d hd
    refine digits16?_of_foreign hq ((List.mem_cons.1 h).resolve_left ?_) d
    rintro rfl
    simp [hq.hexValue?_eq] at hd

theorem unsigned16?_of_foreign (hq : q.Foreign) {t : Text} (h : q ∈ t) : unsigned16? t = none := by
  unfold unsigned16?
  split
  · rfl
  · exact magnitude16?_of_foreign hq h
  · next c d rest =>
    split
    · next hx =>
      have hrest : q ∈ rest := by
        rcases List.mem_cons.1 h with rfl | hmem
        · simp [hq.digitValue?_eq] at hx
        · refine (List.mem_cons.1 hmem).resolve_left ?_
          rintro rfl
          exact hx.2.elim (hq.no_mark 'x' (by decide)) (hq.no_mark 'X' (by decide))
      refine magnitude16?_of_foreign hq ?_
      cases hafter : Text.after? "_" rest with
      | none => exact hrest
      | some more =>
        obtain rfl := eq_append_of_after? hafter
        exact (List.mem_append.1 hrest).resolve_left fun hunder =>
          hq.no_mark '_' (by decide) (List.mem_singleton.1 hunder)
    · exact magnitude16?_of_foreign hq h

/-- what names a code point holds nothing foreign to numbers -/
theorem escapedPoint?_of_foreign (hq : q.Foreign) {t : Text} (h : q ∈ t) : escapedPoint? t = none := by
  have hdrop : ∀ {u : Text}, q ∈ u → q ∈ u.dropWhile aroundNumber := by
    intro u hu
    rw [← List.takeWhile_append_dropWhile (p := aroundNumber) (l := u)] at hu
    refine (List.mem_append.1 hu).resolve_left fun htake => ?_
    exact Bool.eq_false_iff.1 hq.not_blank (List.all_eq_true.1 List.all_takeWhile q htake)
  have hcore : q ∈ ((t.dropWhile aroundNumber).reverse.dropWhile aroundNumber).reverse :=
    List.mem_reverse.2 (hdrop (List.mem_reverse.2 (hdrop h)))
  have hnumber : number16? t = none := by
    unfold number16?
    generalize ((t.dropWhile aroundNumber).reverse.dropWhile aroundNumber).reverse = core at hcore
    dsimp only
    split
    · rfl
    · next c rest =>
      split
      · next hsign =>
        have hrest := (List.mem_cons.1 hcore).resolve_left (hsign ▸ hq.no_mark '-' (by decide))
        rw [unsigned16?_of_foreign hq hrest]
        rfl
      · split
        · next hsign =>
          have hrest := (List.mem_cons.1 hcore).resolve_left (hsign ▸ hq.no_mark '+' (by decide))
          rw [unsigned16?_of_foreign hq hrest]
          rfl
        · rw [unsigned16?_of_foreign hq hcore]
          rfl
  rw [escapedPoint?, hnumber]
  rfl

end Text

/-! ## Stretches -/

namespace Literal

/-- what reading takes at a time: a code point as it stands, the code point behind a backslash, or the code point that
four others name -/
inductive Stretch where
  | plain (c : CodePoint)
  | escape (e : CodePoint)
  | number (a b c d : CodePoint)
  deriving DecidableEq

namespace Stretch

/-- the code points of a stretch -/
def text : Stretch → Text
  | plain c => [c]
  | escape e => [CodePoint.ofChar '\\', e]
  | number a b c d => [CodePoint.ofChar '\\', CodePoint.ofChar 'u', a, b, c, d]

def point? : Stretch → Option CodePoint
  | plain c => some c
  | escape e => some (escaped e)
  | number a b c d => Text.escapedPoint? [a, b, c, d]

/-- in front of this text and between these quotes, reading takes the stretch as one. Behind a backslash, `u` is taken
by itself only where fewer than four code points are left -/
def Fits (quote : CodePoint) (behind : Text) : Stretch → Prop
  | plain c => c ≠ CodePoint.ofChar '\\' ∧ c ≠ quote ∧ c ≠ CodePoint.ofChar '\n'
  | escape e => e = CodePoint.ofChar 'u' → behind.length < 4
  | number _ _ _ _ => True

/-- the code points of some stretches -/
def textOf (ss : List Stretch) : Text := ss.flatMap text

@[simp] theorem textOf_nil : textOf [] = [] := rfl

@[simp] theorem textOf_cons (s : Stretch) (ss : List Stretch) : textOf (s :: ss) = s.text ++ textOf ss := rfl

end Stretch

open Stretch

/-- in front of `behind`, the stretches are read one after the other and stand for `value` -/
inductive Runs (quote : CodePoint) (behind : Text) : List Stretch → Text → Prop where
  | nil : Runs quote behind [] []
  | cons {s : Stretch} {ss : List Stretch} {p : CodePoint} {value : Text} : s.Fits quote (textOf ss ++ behind) →
    s.point? = some p → Runs quote behind ss value → Runs quote behind (s :: ss) (p :: value)

/-- where reading goes no further, and what comes of it -/
inductive Stops (quote : CodePoint) : Text → Except Fault (Text × Nat) → Prop where
  | closed {behind : Text} : Stops quote (quote :: behind) (.ok ([], 1))
  | textEnds : Stops quote [] (.error .unterminated)
  | escapeEnds : Stops quote [CodePoint.ofChar '\\'] (.error .unterminated)
  | lineEnds {behind : Text} : Stops quote (CodePoint.ofChar '\n' :: behind) (.error .unterminated)
  | noNumber {a b c d : CodePoint} {behind : Text} : Text.escapedPoint? [a, b, c, d] = none →
    Stops quote (CodePoint.ofChar '\\' :: CodePoint.ofChar 'u' :: a :: b :: c :: d :: behind)
      (.error (.badEscape (behind.length + 6)))

/-- a text behind an opening quote, parted into the stretches that are read and what reading stops at -/
structure Parted (quote : CodePoint) (t : Text) (ss : List Stretch) (value behind : Text)
    (outcome : Except Fault (Text × Nat)) : Prop where
  text : t = textOf ss ++ behind
  runs : Runs quote behind ss value
  stops : Stops quote behind outcome

/-! ## Reading -/

variable {q : CodePoint}

theorem push_ok {c : CodePoint} {width n : Nat} {r : Except Fault (Text × Nat)} {v : Text} :
    push c width r = .ok (v, n) ↔ ∃ v' n', r = .ok (v', n') ∧ v = c :: v' ∧ n = n' + width := by
  rcases r with fault | ⟨v', n'⟩
  · simp [push]
  · simp only [push, Except.ok.injEq, Prod.mk.injEq]
    grind

theorem read_unicode (a b c d : CodePoint) (behind : Text) :
    read q (CodePoint.ofChar '\\' :: CodePoint.ofChar 'u' :: a :: b :: c :: d :: behind) =
      (Text.escapedPoint? [a, b, c, d]).elim (.error (.badEscape (behind.length + 6)))
        fun p => push p 6 (read q behind) := by
  rw [read.eq_def]
  cases hp : Text.escapedPoint? [a, b, c, d] <;> simp [hp]

theorem read_shortUnicode {few : Text} (h : few.length < 4) :
    read q (CodePoint.ofChar '\\' :: CodePoint.ofChar 'u' :: few) = push (CodePoint.ofChar 'u') 2 (read q few) := by
  rcases few with _ | ⟨_, _ | ⟨_, _ | ⟨_, _ | ⟨_, few⟩⟩⟩⟩
  · simp [read.eq_def]
  · simp [read.eq_def]
  · simp [read.eq_def]
  · simp [read.eq_def]
  · simp only [List.length_cons] at h
    omega

/-- a text is too short for an escape by number, or four code points of it are -/
theorem short_or_four (t : Text) : t.length < 4 ∨ ∃ a b c d behind, t = a :: b :: c :: d :: behind := by
  match t with
  | a :: b :: c :: d :: behind => exact .inr ⟨a, b, c, d, behind, rfl⟩
  | [] => exact .inl (by simp)
  | [_] => exact .inl (by simp)
  | [_, _] => exact .inl (by simp)
  | [_, _, _] => exact .inl (by simp)

variable {behind : Text} {ss : List Stretch} {v : Text} {r : Except Fault (Text × Nat)}

/-- put what some stretches stand for, `width` code points of them, before the rest of a literal -/
def pushAll (value : Text) (width : Nat) : Except Fault (Text × Nat) → Except Fault (Text × Nat)
  | .ok (more, taken) => .ok (value ++ more, taken + width)
  | .error fault => .error fault

theorem read_of_fits {s : Stretch} {p : CodePoint} (hfits : s.Fits q behind) (hp : s.point? = some p) :
    read q (s.text ++ behind) = push p s.text.length (read q behind) := by
  cases s with
  | plain c =>
    cases hp
    exact read_plain hfits.1 hfits.2.1 hfits.2.2 behind
  | escape e =>
    cases hp
    by_cases hu : e = CodePoint.ofChar 'u'
    · subst hu
      exact read_shortUnicode (hfits rfl)
    · exact read_escape q hu behind
  | number a b c d =>
    have hread := read_unicode (q := q) a b c d behind
    rw [show Text.escapedPoint? [a, b, c, d] = some p from hp] at hread
    exact hread

theorem read_of_runs (h : Runs q behind ss v) :
    read q (textOf ss ++ behind) = pushAll v (textOf ss).length (read q behind) := by
  induction h with
  | nil =>
    rcases hr : read q behind with fault | ⟨more, taken⟩ <;> simp [hr, pushAll]
  | @cons s ss p v hfits hp _ ih =>
    rw [textOf_cons, List.append_assoc, read_of_fits hfits hp, ih]
    rcases read q behind with fault | ⟨more, taken⟩
    · rfl
    · simp only [pushAll, push, List.cons_append, List.length_append, Except.ok.injEq, Prod.mk.injEq, true_and]
      omega

/-- every stretch that is read stands for a code point -/
theorem Runs.exists_point (h : Runs q behind ss v) : ∀ s ∈ ss, ∃ p, s.point? = some p := by
  induction h with
  | nil => exact List.forall_mem_nil _
  | cons _ hp _ ih => exact List.forall_mem_cons.2 ⟨⟨_, hp⟩, ih⟩

theorem Stops.read_eq (hq : q.IsQuote) (h : Stops q behind r) : read q behind = r := by
  have hescape : q ≠ CodePoint.ofChar '\\' := hq.ne_ofChar (by decide)
  have hline : CodePoint.ofChar '\n' ≠ q := (hq.ne_ofChar (by decide)).symm
  cases h with
  | closed => exact read_close hescape _
  | textEnds => rw [read]
  | escapeEnds => rw [read.eq_def]; rfl
  | lineEnds => rw [read.eq_def]; simp [hline]
  | noNumber hp => rw [read_unicode, hp]; rfl

theorem Parted.read_eq {t : Text} (hq : q.IsQuote) (h : Parted q t ss v behind r) :
    read q t = pushAll v (textOf ss).length r := by
  rw [h.text, read_of_runs h.runs, h.stops.read_eq hq]

/-- one more stretch in front -/
theorem Parted.cons {t : Text} {s : Stretch} {p : CodePoint} (h : Parted q t ss v behind r) (hfits : s.Fits q t)
    (hp : s.point? = some p) : Parted q (s.text ++ t) (s :: ss) (p :: v) behind r :=
  ⟨by rw [h.text, textOf_cons, List.append_assoc], .cons (h.text ▸ hfits) hp h.runs, h.stops⟩

/-- every text behind an opening quote is parted -/
theorem exists_parted (q : CodePoint) (t : Text) : ∃ ss v behind r, Parted q t ss v behind r := by
  induction hlen : t.length using Nat.strong_induction_on generalizing t with
  | _ len ih =>
    subst hlen
    -- a stretch that fits, and the parts of what stands behind it
    have hstep : ∀ (s : Stretch) {more : Text} {p : CodePoint}, t = s.text ++ more → 0 < s.text.length →
        s.Fits q more → s.point? = some p → ∃ ss v behind r, Parted q t ss v behind r := by
      intro s more p ht hpos hfits hp
      obtain ⟨ss, v, behind, r, hparted⟩ := ih more.length (by rw [ht, List.length_append]; omega) more rfl
      exact ⟨_, _, _, _, ht ▸ hparted.cons hfits hp⟩
    have hstop : ∀ {r : Except Fault (Text × Nat)}, Stops q t r → ∃ ss v behind r, Parted q t ss v behind r :=
      fun h => ⟨[], [], _, _, rfl, .nil, h⟩
    cases t with
    | nil => exact hstop .textEnds
    | cons c t =>
      by_cases hescape : c = CodePoint.ofChar '\\'
      · subst hescape
        cases t with
        | nil => exact hstop .escapeEnds
        | cons e t =>
          by_cases hu : e = CodePoint.ofChar 'u'
          · subst hu
            rcases short_or_four t with hshort | ⟨a, b, c, d, behind, rfl⟩
            · exact hstep (.escape _) rfl (by simp [Stretch.text]) (fun _ => hshort) rfl
            · cases hp : Text.escapedPoint? [a, b, c, d] with
              | none => exact hstop (.noNumber hp)
              | some p => exact hstep (.number a b c d) rfl (by simp [Stretch.text]) trivial hp
          · exact hstep (.escape e) rfl (by simp [Stretch.text]) (fun h => absurd h hu) rfl
      · by_cases hquote : c = q
        · subst hquote
          exact hstop .closed
        · by_cases hline : c = CodePoint.ofChar '\n'
          · subst hline
            exact hstop .lineEnds
          · exact hstep (.plain c) rfl (by simp [Stretch.text]) ⟨hescape, hquote, hline⟩ rfl

/-- a literal that is read is closed behind its stretches -/
theorem runs_of_read (hq : q.IsQuote) {t : Text} {n : Nat} (h : read q t = .ok (v, n)) :
    ∃ ss behind, t = textOf ss ++ q :: behind ∧ Runs q (q :: behind) ss v ∧ n = (textOf ss).length + 1 := by
  obtain ⟨ss, v', behind, r, hparted⟩ := exists_parted q t
  rw [hparted.read_eq hq] at h
  obtain ⟨htext, hruns, hstops⟩ := hparted
  cases hstops with
  | @closed behind =>
    simp only [pushAll, List.append_nil, Except.ok.injEq, Prod.mk.injEq] at h
    obtain ⟨rfl, rfl⟩ := h
    exact ⟨ss, behind, htext, hruns, Nat.add_comm ..⟩
  | _ => cases h

/-- a literal ends with its quote -/
theorem closed_of_read (hq : q.IsQuote) {t : Text} {n : Nat} (h : read q t = .ok (v, n)) :
    ∃ body behind, t = body ++ q :: behind ∧ n = body.length + 1 := by
  obtain ⟨ss, behind, rfl, -, rfl⟩ := runs_of_read hq h
  exact ⟨textOf ss, behind, rfl, rfl⟩

/-! ## Other texts behind a literal -/

/-- with enough behind the literal, an escape that was cut short by the end of the text runs over the closing quote -/
theorem read_over_quote (hq : q.IsQuote) (hshort : (textOf ss ++ q :: behind).length < 4) {behind' : Text}
    (hlong : ¬ (textOf ss ++ q :: behind').length < 4) :
    ∃ left, read q ((escape (CodePoint.ofChar 'u')).text ++ (textOf ss ++ q :: behind')) = .error (.badEscape left) := by
  -- fewer than four were left with the quote among them, so the quote is one of the four that there are now
  obtain ⟨a, b, c, d, more, hfour⟩ := (short_or_four (textOf ss ++ q :: behind')).resolve_left hlong
  have hmem : q ∈ [a, b, c, d] := by
    have hfront : textOf ss ++ [q] <+: [a, b, c, d] ++ more := ⟨behind', by rw [List.append_assoc]; exact hfour⟩
    have hprefix : textOf ss ++ [q] <+: [a, b, c, d] := by
      refine List.prefix_of_prefix_length_le hfront (List.prefix_append _ _) ?_
      simp only [List.length_append, List.length_cons, List.length_nil] at hshort ⊢
      omega
    exact hprefix.subset (by simp)
  refine ⟨more.length + 6, ?_⟩
  rw [hfour]
  exact (read_unicode a b c d more).trans (by rw [Text.escapedPoint?_of_foreign hq.foreign hmem]; rfl)

/-- a stretch that fits in front of one text and not in front of another is the `u` of an escape that was cut short -/
theorem Stretch.Fits.cut_short {s : Stretch} {behind' : Text} (h : s.Fits q behind) (hnot : ¬ s.Fits q behind') :
    s = escape (CodePoint.ofChar 'u') ∧ behind.length < 4 ∧ ¬ behind'.length < 4 := by
  cases s with
  | plain c => exact absurd h hnot
  | escape e =>
    obtain ⟨rfl, hlong⟩ := Classical.not_imp.1 hnot
    exact ⟨rfl, h rfl, hlong⟩
  | number a b c d => exact absurd trivial hnot

/-- in front of another text the stretches are read alike up to the closing quote, or an escape that was cut short runs
over it -/
theorem Runs.read_before (hq : q.IsQuote) (h : Runs q (q :: behind) ss v) (behind' : Text) :
    read q (textOf ss ++ q :: behind') = .ok (v, (textOf ss).length + 1) ∨
      behind.length < 4 ∧ ∃ fault, read q (textOf ss ++ q :: behind') = .error fault := by
  induction h with
  | nil => exact .inl (Stops.read_eq hq .closed)
  | @cons s ss p v hfits hp _ ih =>
    rw [textOf_cons, List.append_assoc]
    by_cases hfits' : s.Fits q (textOf ss ++ q :: behind')
    · rw [read_of_fits hfits' hp]
      rcases ih with hsame | ⟨hshort, fault, hfault⟩
      · refine .inl (push_ok.2 ⟨v, _, hsame, rfl, ?_⟩)
        rw [List.length_append]
        omega
      · exact .inr ⟨hshort, fault, by rw [hfault]; rfl⟩
    · obtain ⟨rfl, hshort, hlong⟩ := hfits.cut_short hfits'
      obtain ⟨left, hleft⟩ := read_over_quote hq hshort hlong
      simp only [List.length_append, List.length_cons] at hshort
      exact .inr ⟨by omega, _, hleft⟩

/-- what stands behind a literal says nothing about it, unless an escape by number is cut short by the end of the text:
the same escape with more behind it names no code point -/
theorem read_append (hq : q.IsQuote) {s t : Text} {n : Nat} (h : read q (s ++ t) = .ok (v, n)) (hn : n ≤ s.length)
    (t' : Text) : read q (s ++ t') = .ok (v, n) ∨ t.length < 4 ∧ ∃ fault, read q (s ++ t') = .error fault := by
  obtain ⟨ss, behind, htext, hruns, rfl⟩ := runs_of_read hq h
  have hfront : textOf ss ++ [q] <+: s := by
    have hprefix : textOf ss ++ [q] <+: s ++ t := ⟨behind, by rw [htext, List.append_assoc]; rfl⟩
    exact List.prefix_of_prefix_length_le hprefix (List.prefix_append _ _) (by simpa using hn)
  obtain ⟨more, rfl⟩ := hfront
  obtain rfl : more ++ t = behind := by simpa using htext
  have hwhole : textOf ss ++ [q] ++ more ++ t' = textOf ss ++ q :: (more ++ t') := by simp
  rw [hwhole]
  rcases hruns.read_before hq (more ++ t') with hsame | ⟨hshort, hfault⟩
  · exact .inl hsame
  · rw [List.length_append] at hshort
    exact .inr ⟨by omega, hfault⟩

end Literal

end Rulebook
