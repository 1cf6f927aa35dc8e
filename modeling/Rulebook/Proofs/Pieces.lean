/-
Cutting is local. A piece is known by its own code points and the one behind it, so a text that was cut in front of one
text is cut into the same pieces in front of another:

- `cut_split`: what a text in front of `u` is cut into stays when more stands behind `u`;
- `cut_replace`: what stands behind a text can be replaced where nothing carries its last piece on (`Seam`).

One thing reaches further: an escape in a literal that is cut short by the end of the text (`Literal.read_append`).

The tokens and words of such texts follow one another in the same way (`ofPieces_append`, `wordsBehind_append`).
-/
import Rulebook.Proofs.Stretches

namespace Rulebook

open Source

namespace Piece

/-- a piece and the pieces behind it -/
theorem cut_cons {c : CodePoint} {rest : Text} {token : Option Key} {n : Nat} {pieces : List Piece}
    (hfirst : Piece.first c rest = .ok (token, n)) (hmore : Piece.cut (rest.drop n) = .ok pieces) :
    Piece.cut (c :: rest) = .ok (⟨c :: rest.take n, token⟩ :: pieces) := by
  rw [Piece.cut]
  simp only [hfirst, hmore]

/-! ## One piece -/

/-- where a class of code points goes on no further -/
theorem forall_of_takeWhile {p : CodePoint → Bool} {s t : Text} (h : ((s ++ t).takeWhile p).length = s.length) :
    (∀ d ∈ s, p d = true) ∧ ∀ d ∈ t.head?, p d = false := by
  have hfront : (s ++ t).takeWhile p = s :=
    (List.prefix_of_prefix_length_le (List.takeWhile_prefix p) (List.prefix_append s t) h.le).eq_of_length h
  have hs : ∀ d ∈ s, p d = true := fun d hd => List.all_eq_true.1 List.all_takeWhile d (hfront ▸ hd)
  refine ⟨hs, fun d hd => Bool.eq_false_iff.2 fun hp => ?_⟩
  obtain ⟨more, rfl⟩ := List.head?_eq_some_iff.1 hd
  rw [List.takeWhile_append_of_pos hs, List.takeWhile_cons_of_pos hp] at h
  simp at h

theorem takeWhile_append {p : CodePoint → Bool} {s t t' : Text} (h : ((s ++ t).takeWhile p).length ≤ s.length)
    (hend : ((s ++ t).takeWhile p).length = s.length → ∀ c ∈ t'.head?, p c = false) :
    (s ++ t').takeWhile p = (s ++ t).takeWhile p := by
  rcases Nat.lt_or_eq_of_le h with hshort | hlong
  · rw [List.takeWhile_append] at hshort ⊢
    rw [List.takeWhile_append]
    split at hshort
    · simp at hshort
    · next hstop => simp only [if_neg hstop]
  · obtain ⟨hs, ht⟩ := forall_of_takeWhile hlong
    rw [takeWhile_append_of_ends hs (hend hlong), takeWhile_append_of_ends hs ht]

theorem two_le_of_commentLength? {s : Text} {n : Nat} (h : commentLength? s = some n) : 2 ≤ n := by
  fun_induction commentLength? s generalizing n with
  | case1 => cases h
  | case2 => cases h
  | case3 => cases h; exact Nat.le_refl 2
  | case4 c d rest _ ih =>
    obtain ⟨m, hm, rfl⟩ := Option.map_eq_some_iff.1 h
    have htwo := ih hm
    omega

theorem commentLength?_append {s t : Text} {n : Nat} (h : commentLength? (s ++ t) = some n) (hn : n ≤ s.length)
    (t' : Text) : commentLength? (s ++ t') = some n := by
  induction s generalizing n with
  | nil =>
    have htwo := two_le_of_commentLength? h
    simp at hn
    omega
  | cons c s ih =>
    cases s with
    | nil =>
      have htwo := two_le_of_commentLength? h
      simp at hn
      omega
    | cons d s =>
      rw [List.cons_append, List.cons_append, commentLength?] at h ⊢
      split at h
      · next hclose => rw [if_pos hclose, h]
      · next hopen =>
        obtain ⟨m, hm, rfl⟩ := Option.map_eq_some_iff.1 h
        have hsame := ih hm (by simpa using hn)
        rw [List.cons_append] at hsame
        rw [if_neg hopen, hsame]
        rfl

theorem commentLength?_drop_append {s t : Text} {n : Nat} (h : commentLength? ((s ++ t).drop 1) = some n)
    (hn : n + 1 ≤ s.length) (t' : Text) : commentLength? ((s ++ t').drop 1) = some n := by
  have hdrop : ∀ u : Text, (s ++ u).drop 1 = s.drop 1 ++ u := fun u => List.drop_append_of_le_length (by omega)
  rw [hdrop] at h ⊢
  exact commentLength?_append h (by rw [List.length_drop]; omega) t'

/-- a symbol is known by two code points, and by one where no symbol would go on -/
theorem symbol?_append (c : CodePoint) {s t t' : Text} (hend : s = [] → SymbolEnds t ∧ SymbolEnds t') :
    symbol? c (s ++ t') = symbol? c (s ++ t) := by
  cases s with
  | nil =>
    obtain ⟨ht, ht'⟩ := hend rfl
    rw [List.nil_append, List.nil_append, symbol?_of_ends c ht, symbol?_of_ends c ht']
    rfl
  | cons d s =>
    unfold symbol?
    congr 1
    funext s
    cases s <;> rfl

theorem symbol?_caret (rest : Text) : symbol? (CodePoint.ofChar '^') rest = none := by
  refine List.find?_eq_none.2 fun s _ => ?_
  cases s <;> exact Bool.false_ne_true

theorem name?_append {c : CodePoint} {s t t' : Text} (hcaret : s = [] → c ≠ CodePoint.ofChar '^')
    (h : ∀ v n, name? c (s ++ t) = some (v, n) → n ≤ s.length ∧ (n = s.length → NameEnds t')) :
    name? c (s ++ t') = name? c (s ++ t) := by
  unfold name? at h ⊢
  by_cases hc : c = CodePoint.ofChar '^'
  · obtain ⟨d, s, rfl⟩ := List.exists_cons_of_ne_nil fun hs => hcaret hs hc
    simp only [if_pos hc, List.cons_append] at h ⊢
    by_cases hstart : isNameStart d = true
    · obtain ⟨hn, hends⟩ := h _ _ (if_pos hstart)
      rw [if_pos hstart, if_pos hstart, takeWhile_append (by simpa using hn) fun hlong => hends (by simpa using hlong)]
    · rw [if_neg hstart, if_neg hstart]
  · simp only [if_neg hc] at h ⊢
    by_cases hstart : isNameStart c = true
    · obtain ⟨hn, hends⟩ := h _ _ (if_pos hstart)
      rw [if_pos hstart, if_pos hstart, takeWhile_append hn hends]
    · rw [if_neg hstart, if_neg hstart]

/-- the text begins with nothing that carries a symbol or a number on, or that begins a comment behind a slash -/
def Plain (t : Text) : Prop :=
  SymbolEnds t ∧ ∀ d ∈ t.head?, d ≠ CodePoint.ofChar '/' ∧ d ≠ CodePoint.ofChar '*' ∧ d.isDigit = false

theorem Plain.head?_ne {t : Text} (h : Plain t) {x : CodePoint}
    (hx : x = CodePoint.ofChar '/' ∨ x = CodePoint.ofChar '*') : t.head? ≠ some x := by
  intro hhead
  rcases hx with rfl | rfl
  · exact (h.2 _ hhead).1 rfl
  · exact (h.2 _ hhead).2.1 rfl

/-- right behind a piece, `t` can be replaced by `t'`; a line comment that ends in front of `t` ends in front of `t'` -/
structure Seam (token : Option Key) (t t' : Text) : Prop where
  before : Plain t
  after : Plain t'
  line : (∀ d ∈ t.head?, d = CodePoint.ofChar '\n') → ∀ d ∈ t'.head?, d = CodePoint.ofChar '\n'
  name : ∀ v, token = some (.name, v) → NameEnds t'

/-- whether a comment begins behind a slash is said by what stands in front of plain texts -/
theorem head?_append_iff {s t t' : Text} (hplain : s = [] → Plain t ∧ Plain t') {x : CodePoint}
    (hx : x = CodePoint.ofChar '/' ∨ x = CodePoint.ofChar '*') :
    (s ++ t').head? = some x ↔ (s ++ t).head? = some x := by
  cases s with
  | cons d s => exact Iff.rfl
  | nil =>
    obtain ⟨ht, ht'⟩ := hplain rfl
    exact iff_of_false (ht'.head?_ne hx) (ht.head?_ne hx)

/-- a caret that begins a name is not all of it -/
theorem pos_of_name?_caret {rest v : Text} {n : Nat} (h : name? (CodePoint.ofChar '^') rest = some (v, n)) : 0 < n := by
  unfold name? at h
  rw [if_pos rfl] at h
  split at h
  · cases h
  · split at h
    · cases h
      exact Nat.succ_pos _
    · cases h

/-- what stands behind a piece and one more code point says nothing about the piece, unless an escape is cut short -/
theorem first_append {c : CodePoint} {s t t' : Text} {token : Option Key} {n : Nat}
    (h : first c (s ++ t) = .ok (token, n)) (hn : n ≤ s.length) (hend : n = s.length → Seam token t t') :
    first c (s ++ t') = .ok (token, n) ∨ t.length < 4 ∧ c.IsQuote ∧ ∃ fault, first c (s ++ t') = .error fault := by
  have hseam : s = [] → Seam token t t' := fun hs => hend (by rw [hs] at hn ⊢; exact Nat.le_zero.1 hn)
  have hplain : s = [] → Plain t ∧ Plain t' := fun hs => ⟨(hseam hs).before, (hseam hs).after⟩
  unfold first at h ⊢
  simp only [head?_append_iff hplain (.inl rfl), head?_append_iff hplain (.inr rfl)]
  by_cases hgap : isGap c = true
  · rw [if_pos hgap] at h ⊢
    exact .inl h
  rw [if_neg hgap] at h ⊢
  by_cases hline : c = CodePoint.ofChar '/' ∧ (s ++ t).head? = some (CodePoint.ofChar '/')
  · rw [if_pos hline] at h ⊢
    cases h
    refine .inl ?_
    rw [takeWhile_append hn]
    intro hlong d hd
    have hfeed := (hend hlong).line (fun e he => by simpa using (forall_of_takeWhile hlong).2 e he) d hd
    simpa using hfeed
  rw [if_neg hline] at h ⊢
  by_cases hblock : c = CodePoint.ofChar '/' ∧ (s ++ t).head? = some (CodePoint.ofChar '*')
  · rw [if_pos hblock] at h ⊢
    refine .inl ?_
    split at h
    · cases h
    · next m hm =>
      cases h
      rw [commentLength?_drop_append hm hn]
      simp only [List.take_append_of_le_length hn]
  rw [if_neg hblock] at h ⊢
  by_cases hquote : c = CodePoint.ofChar '\'' ∨ c = CodePoint.ofChar '"'
  · rw [if_pos hquote] at h ⊢
    split at h
    · next v m hread =>
      cases h
      rcases Literal.read_append hquote hread hn t' with hsame | ⟨hshort, fault, hfault⟩
      · exact .inl (by rw [hsame])
      · refine .inr ⟨hshort, hquote, ?_⟩
        rw [hfault]
        cases fault <;> exact ⟨_, rfl⟩
    · cases h
    · cases h
  rw [if_neg hquote] at h ⊢
  refine .inl ?_
  by_cases hdigit : c.isDigit = true
  · rw [if_pos hdigit] at h ⊢
    cases h
    rw [takeWhile_append hn fun hlong d hd => ((hend hlong).after.2 d hd).2.2]
  rw [if_neg hdigit] at h ⊢
  have hname : name? c (s ++ t') = name? c (s ++ t) := by
    refine name?_append ?_ fun v m hname => ?_
    · rintro rfl rfl
      rw [symbol?_caret] at h
      split at h
      · next hname =>
        cases h
        exact absurd hn (Nat.not_le.2 (pos_of_name?_caret hname))
      · cases h
    · rw [hname] at h
      cases h
      exact ⟨hn, fun hlong => (hend hlong).name v rfl⟩
  have hsymbol : symbol? c (s ++ t') = symbol? c (s ++ t) :=
    symbol?_append c fun hs => ⟨(hseam hs).before.1, (hseam hs).after.1⟩
  rw [hname, hsymbol]
  split at h
  · exact h
  · split at h
    · exact h
    · cases h

/-! ## Texts one after the other -/

/-- the first piece of a text that has more to it -/
theorem first_of_cut {s u : Text} {p : Piece} {ps us : List Piece} (h : cut (s ++ u) = .ok (p :: ps ++ us))
    (htext : (p :: ps).flatMap text = s) (hu : u ≠ []) :
    ∃ c body, p = ⟨c :: body, p.token⟩ ∧ s = c :: (body ++ ps.flatMap text) ∧
      first c (body ++ (ps.flatMap text ++ u)) = .ok (p.token, body.length) ∧
      cut (ps.flatMap text ++ u) = .ok (ps ++ us) := by
  cases hwhole : s ++ u with
  | nil => exact absurd (List.append_eq_nil_iff.1 hwhole).2 hu
  | cons c rest =>
    rw [hwhole, cut] at h
    split at h
    · cases h
    · next token n hfirst =>
      split at h
      · cases h
      · next more hmore =>
        obtain ⟨rfl, rfl⟩ : (⟨c :: rest.take n, token⟩ : Piece) = p ∧ more = ps ++ us := by simpa using h
        simp only [List.flatMap_cons, List.cons_append] at htext
        have hrest : rest = rest.take n ++ (ps.flatMap text ++ u) := by
          rw [← htext, List.cons_append, List.append_assoc] at hwhole
          exact (List.cons.inj hwhole).2.symm
        have hdrop : rest.drop n = ps.flatMap text ++ u :=
          List.append_cancel_left ((List.take_append_drop n rest).trans hrest)
        have hlength : (rest.take n).length = n := by
          have hpos : 0 < (rest.drop n).length := by
            rw [hdrop, List.length_append]
            have hupos := List.length_pos_of_ne_nil hu
            omega
          rw [List.length_drop] at hpos
          rw [List.length_take]
          omega
        refine ⟨c, rest.take n, rfl, htext.symm, ?_, hdrop ▸ hmore⟩
        rw [← hrest, hlength]
        exact hfirst

/-- a text that is cut by itself in front of `u` is cut like that in front of everything that begins with `u` -/
theorem cut_split {s u t : Text} {ps us qs : List Piece} (hs : cut (s ++ u) = .ok (ps ++ us))
    (htext : ps.flatMap text = s) (hu : u ≠ []) (h : cut (s ++ (u ++ t)) = .ok qs) :
    ∃ rs, cut (u ++ t) = .ok rs ∧ qs = ps ++ rs := by
  induction ps generalizing s qs with
  | nil =>
    obtain rfl : [] = s := htext
    exact ⟨qs, h, rfl⟩
  | cons p ps ih =>
    obtain ⟨c, body, hp, hsplit, hfirst, hmore⟩ := first_of_cut hs htext hu
    have hshort : body.length < (body ++ (ps.flatMap text ++ u)).length := by
      have hupos := List.length_pos_of_ne_nil hu
      simp only [List.length_append]
      omega
    rw [← List.append_nil (body ++ _)] at hfirst
    rw [hsplit, List.cons_append, List.append_assoc, cut] at h
    have hassoc : body ++ (ps.flatMap text ++ (u ++ t)) = body ++ (ps.flatMap text ++ u) ++ t := by simp
    rw [hassoc] at h
    have hbehind : body.length = (body ++ (ps.flatMap text ++ u)).length → Seam p.token [] t := fun hlong =>
      absurd hlong hshort.ne
    rcases first_append hfirst hshort.le hbehind with hsame | ⟨-, -, fault, hfault⟩
    · have hdrop : (body ++ (ps.flatMap text ++ u) ++ t).drop body.length = ps.flatMap text ++ (u ++ t) := by simp
      have htake : (body ++ (ps.flatMap text ++ u) ++ t).take body.length = body := by simp
      simp only [hsame, hdrop, htake] at h
      split at h
      · cases h
      · next more hcut =>
        cases h
        obtain ⟨rs, hrs, rfl⟩ := ih hmore rfl hcut
        exact ⟨rs, hrs, by rw [List.cons_append, ← hp]⟩
    · rw [hfault] at h
      cases h

/-- what stands behind a text can be replaced, as long as the last piece of the text stays the same -/
theorem cut_replace {s t t' : Text} {ps ts ts' : List Piece} (h : cut (s ++ t) = .ok (ps ++ ts))
    (htext : ps.flatMap text = s) (hlong : 4 ≤ t.length)
    (hlast : ∀ p ∈ ps.getLast?, Seam p.token t t') (ht' : cut t' = .ok ts') : cut (s ++ t') = .ok (ps ++ ts') := by
  induction ps generalizing s with
  | nil =>
    obtain rfl : [] = s := htext
    exact ht'
  | cons p ps ih =>
    obtain ⟨c, body, hp, hsplit, hfirst, hmore⟩ := first_of_cut h htext (List.ne_nil_of_length_pos (by omega))
    have hcut := ih hmore rfl fun q hq => hlast q (by
      rw [List.getLast?_cons, hq]
      rfl)
    have hsame : first c (body ++ (ps.flatMap text ++ t')) = .ok (p.token, body.length) := by
      rw [← List.append_assoc] at hfirst ⊢
      have hle : body.length ≤ (body ++ ps.flatMap text).length := by simp
      have hend : body.length = (body ++ ps.flatMap text).length → Seam p.token t t' := by
        intro hlength
        cases ps with
        | nil => exact hlast p rfl
        | cons q ps =>
          obtain ⟨d, tail, hq, -, -⟩ := first_of_cut hmore rfl (List.ne_nil_of_length_pos (by omega))
          rw [List.flatMap_cons, hq] at hlength
          simp at hlength
      exact (first_append hfirst hle hend).resolve_right fun hshort => absurd hshort.1 (by omega)
    have hwhole := cut_cons hsame (by rw [List.drop_left]; exact hcut)
    rw [List.take_left, ← hp] at hwhole
    rw [hsplit, List.cons_append, List.append_assoc]
    exact hwhole

end Piece

/-! ## Tokens and words -/

/-- the tokens of pieces one after the other -/
theorem Lexed.ofPieces_append (m : Mark) (ps qs : List Piece) :
    (ofPieces m (ps ++ qs)).tokens = (ofPieces m ps).tokens ++ (ofPieces (ofPieces m ps).stop qs).tokens := by
  induction ps generalizing m with
  | nil => rfl
  | cons p ps ih =>
    simp only [List.cons_append, ofPieces]
    cases p.token with
    | none => exact ih _
    | some k => simp [ih]

theorem Lexed.stop_ofPieces_append (m : Mark) (ps qs : List Piece) :
    (ofPieces m (ps ++ qs)).stop = (ofPieces (ofPieces m ps).stop qs).stop := by
  induction ps generalizing m with
  | nil => rfl
  | cons p ps ih =>
    simp only [List.cons_append, ofPieces]
    cases p.token with
    | none => exact ih _
    | some k => exact ih _

namespace Source

/-- the last head comment, if no token has taken it yet -/
def pending (comment : Option Text) : List Token → Option Text
  | [] => comment
  | t :: ts => if t.kind = .headComment then pending (some t.value) ts else pending none ts

/-- the words of tokens one after the other -/
theorem wordsBehind_append (comment : Option Text) (ts us : List Token) :
    wordsBehind comment (ts ++ us) = wordsBehind comment ts ++ wordsBehind (pending comment ts) us := by
  induction ts generalizing comment with
  | nil => rfl
  | cons t ts ih =>
    rw [List.cons_append, wordsBehind, wordsBehind, pending]
    split
    · exact ih _
    · rw [ih, List.cons_append]

/-- what a word says, wherever it stands -/
def Word.said (w : Word) : Key × Option Text := (w.key, w.comment)

/-- what the words of some tokens say does not depend on where the tokens stand -/
theorem said_wordsBehind {ts us : List Token} (h : ts.map Token.key = us.map Token.key) (comment : Option Text) :
    (wordsBehind comment ts).map Word.said = (wordsBehind comment us).map Word.said ∧
      pending comment ts = pending comment us := by
  induction ts generalizing us comment with
  | nil =>
    obtain rfl := List.map_eq_nil_iff.1 h.symm
    exact ⟨rfl, rfl⟩
  | cons t ts ih =>
    obtain ⟨u, us, rfl, hkey, hmore⟩ := List.map_eq_cons_iff.1 h.symm
    obtain ⟨hkind, hvalue⟩ : u.kind = t.kind ∧ u.value = t.value := by simpa [Token.key] using hkey
    simp only [wordsBehind, pending, hkind, hvalue]
    split
    · exact ih hmore.symm _
    · obtain ⟨hwords, hpending⟩ := ih hmore.symm none
      exact ⟨by simp [hwords, Word.said, Word.key, hkey], hpending⟩

/-- a comment is pending behind some tokens as behind the last of them -/
theorem pending_append (comment : Option Text) (ts us : List Token) :
    pending comment (ts ++ us) = pending (pending comment ts) us := by
  induction ts generalizing comment with
  | nil => rfl
  | cons t ts ih =>
    rw [List.cons_append, pending, pending]
    split
    · exact ih _
    · exact ih _

/-- the words of pieces one after the other -/
theorem wordsBehind_ofPieces_append (comment : Option Text) (m : Mark) (ps qs : List Piece) :
    wordsBehind comment (Lexed.ofPieces m (ps ++ qs)).tokens =
      wordsBehind comment (Lexed.ofPieces m ps).tokens ++
        wordsBehind (pending comment (Lexed.ofPieces m ps).tokens)
          (Lexed.ofPieces (Lexed.ofPieces m ps).stop qs).tokens := by
  rw [Lexed.ofPieces_append, wordsBehind_append]

/-- what the words of some pieces say does not depend on where the pieces stand -/
theorem said_ofPieces (comment : Option Text) (m m' : Mark) (ps : List Piece) :
    (wordsBehind comment (Lexed.ofPieces m ps).tokens).map Word.said =
        (wordsBehind comment (Lexed.ofPieces m' ps).tokens).map Word.said ∧
      pending comment (Lexed.ofPieces m ps).tokens = pending comment (Lexed.ofPieces m' ps).tokens :=
  said_wordsBehind (by rw [Lexed.keys_ofPieces, Lexed.keys_ofPieces]) comment

/-- no comment is pending behind a piece that makes a word -/
theorem pending_ofPieces_append {q : Piece} {k : Key} (hq : q.token = some k) (hk : k.1 ≠ .headComment)
    (comment : Option Text) (m : Mark) (ps : List Piece) :
    pending comment (Lexed.ofPieces m (ps ++ [q])).tokens = none := by
  rw [Lexed.ofPieces_append, pending_append]
  simp [Lexed.ofPieces, hq, pending, hk]

end Source

end Rulebook
