/-
How a text that is put together is cut. `Cuts t keys rest` says that in front of `rest` the text `t` is cut into pieces
of its own, and that the tokens among them have the given kinds and values. Texts that are cut one after the other are
cut together (`Cuts.append`), so a printed text is cut by its parts.

A name goes on as long as it can, and six symbols begin longer ones, so the statements for them ask what comes next.
Quoting a keyword and reading a literal are inverse (`read_quoted`), whatever follows the quoted keyword.
-/
import Rulebook.Token.Lexed
import Rulebook.Source.Word
import Rulebook.Grammar.Printer
import Mathlib.Tactic

namespace Rulebook

@[simp] theorem CodePoint.ofChar_inj (c d : Char) : CodePoint.ofChar c = CodePoint.ofChar d ↔ c = d := by
  refine ⟨fun h => ?_, fun h => h ▸ rfl⟩
  have hval := congrArg CodePoint.val h
  exact Char.ext (UInt32.toNat_inj.1 hval)

abbrev Key := TokenKind × Text

/-- in front of `rest` the text is cut by itself, into tokens of these kinds and values -/
def Cuts (t : Text) (keys : List Key) (rest : Text) : Prop :=
  ∀ pieces, Piece.cut rest = .ok pieces →
    ∃ front, Piece.cut (t ++ rest) = .ok (front ++ pieces) ∧ front.filterMap Piece.token = keys

namespace Cuts

theorem nil (rest : Text) : Cuts [] [] rest := fun _ h => ⟨[], h, rfl⟩

theorem append {t u rest : Text} {ks ls : List Key} (ht : Cuts t ks (u ++ rest)) (hu : Cuts u ls rest) :
    Cuts (t ++ u) (ks ++ ls) rest := by
  intro pieces hrest
  obtain ⟨back, hback, rfl⟩ := hu pieces hrest
  obtain ⟨front, hfront, rfl⟩ := ht _ hback
  exact ⟨front ++ back, by rw [List.append_assoc, hfront, List.append_assoc], List.filterMap_append⟩

/-- one piece -/
theorem first {c : CodePoint} {t rest : Text} (token : Option Key)
    (h : Piece.first c (t ++ rest) = .ok (token, t.length)) : Cuts (c :: t) token.toList rest := by
  intro pieces hrest
  refine ⟨[⟨c :: t, token⟩], ?_, by cases token <;> rfl⟩
  rw [List.cons_append, Piece.cut]
  simp [h, hrest]

end Cuts

/-! ## Names -/

/-- a letter or an underscore, and further letters, underscores and digits -/
inductive IsIdentifier : Text → Prop where
  | intro {c : CodePoint} {tail : Text} :
    Piece.isNameStart c = true → (∀ d ∈ tail, Piece.isNamePart d = true) → IsIdentifier (c :: tail)

/-- a name would not go on -/
def NameEnds (rest : Text) : Prop := ∀ c ∈ rest.head?, Piece.isNamePart c = false

theorem isNamePart_of_isNameStart {c : CodePoint} (h : Piece.isNameStart c = true) : Piece.isNamePart c = true := by
  simp [Piece.isNamePart, h]

theorem isNameStart_bounds {c : CodePoint} (h : Piece.isNameStart c = true) : 0x41 ≤ c.val ∧ c.val ≤ 0x7A := by
  simp only [Piece.isNameStart, CodePoint.inRanges, List.any_cons, List.any_nil, Bool.or_false, Bool.or_eq_true,
    Bool.and_eq_true, decide_eq_true_eq] at h
  omega

theorem not_isDigit_of_isNameStart {c : CodePoint} (h : Piece.isNameStart c = true) : c.isDigit = false := by
  have hbounds := isNameStart_bounds h
  simp only [CodePoint.isDigit, CodePoint.digitValue?, Option.isSome_map, Bool.eq_false_iff, Ne, List.find?_isSome,
    not_exists, not_and]
  intro z hz
  have hfar : z + 9 < 0x41 ∨ 0x7A < z := by
    revert z
    decide
  simp only [Bool.and_eq_true, decide_eq_true_eq, not_and, not_le]
  omega

theorem takeWhile_append_of_ends {p : CodePoint → Bool} {t rest : Text} (ht : ∀ d ∈ t, p d = true)
    (hrest : ∀ c ∈ rest.head?, p c = false) : (t ++ rest).takeWhile p = t := by
  rw [List.takeWhile_append_of_pos ht]
  cases rest with
  | nil => simp
  | cons c rest => simp [hrest c (by simp)]

/-- a name ends where it would not go on -/
theorem Piece.first_name {c : CodePoint} {tail rest : Text} (hc : Piece.isNameStart c = true)
    (htail : ∀ d ∈ tail, Piece.isNamePart d = true) (hrest : NameEnds rest) :
    Piece.first c (tail ++ rest) = .ok (some (.name, c :: tail), tail.length) := by
  have hother : ∀ d : CodePoint, Piece.isNameStart d = false → c ≠ d := by
    rintro d hd rfl
    simp [hc] at hd
  unfold Piece.first
  simp [Piece.isGap, Piece.name?, hc, not_isDigit_of_isNameStart hc, takeWhile_append_of_ends htail hrest,
    hother (CodePoint.ofChar ' ') (by decide), hother (CodePoint.ofChar '\t') (by decide),
    hother (CodePoint.ofChar '\r') (by decide), hother (CodePoint.ofChar '\n') (by decide),
    hother (CodePoint.ofChar '/') (by decide), hother (CodePoint.ofChar '\'') (by decide),
    hother (CodePoint.ofChar '"') (by decide), hother (CodePoint.ofChar '^') (by decide)]

theorem cuts_name {t rest : Text} (h : IsIdentifier t) (hrest : NameEnds rest) : Cuts t [(.name, t)] rest := by
  obtain ⟨hc, htail⟩ := h
  exact Cuts.first (some (.name, _)) (Piece.first_name hc htail hrest)

/-! ## Symbols and gaps -/

/-- the text begins with none of the code points that a symbol could go on with -/
def SymbolEnds (rest : Text) : Prop :=
  ∀ c ∈ rest.head?, c ≠ CodePoint.ofChar ':' ∧ c ≠ CodePoint.ofChar '.' ∧ c ≠ CodePoint.ofChar '=' ∧
    c ≠ CodePoint.ofChar '>'

/-- neither a name nor a symbol would go on -/
def Ends (rest : Text) : Prop := NameEnds rest ∧ SymbolEnds rest

def Symbol.key (s : Symbol) : Key := (.symbol s, s.spelling)

theorem cuts_double (s : Symbol) (h : s ∈ Symbol.double) (rest : Text) : Cuts s.spelling [s.key] rest := by
  simp only [Symbol.double, List.mem_cons, List.not_mem_nil, or_false] at h
  rcases h with rfl | rfl | rfl | rfl | rfl | rfl <;> exact Cuts.first (some (.symbol _, _)) rfl

/-- a code point that begins nothing else begins the symbol that is found there -/
theorem Piece.first_of_symbol? {c : CodePoint} {rest : Text} {s : Symbol} (hgap : isGap c = false)
    (hslash : c ≠ CodePoint.ofChar '/') (hquote : c ≠ CodePoint.ofChar '\'' ∧ c ≠ CodePoint.ofChar '"')
    (hdigit : c.isDigit = false) (hname : name? c rest = none) (hs : symbol? c rest = some s) :
    first c rest = .ok (some s.key, s.spelling.length - 1) := by
  simp [first, hgap, hslash, hquote, hdigit, hname, hs, Symbol.key]

/-- where no symbol would go on, a symbol of one code point is found -/
theorem symbol?_of_ends (c : CodePoint) {rest : Text} (h : SymbolEnds rest) :
    Piece.symbol? c rest = Symbol.single.find? fun s => Text.startsWith (c :: rest) s.spelling := by
  have hnone : (Symbol.double.find? fun s => Text.startsWith (c :: rest) s.spelling) = none := by
    rw [List.find?_eq_none]
    intro s hs
    simp only [Symbol.double, List.mem_cons, List.not_mem_nil, or_false] at hs
    cases rest with
    | nil => rcases hs with rfl | rfl | rfl | rfl | rfl | rfl <;> simp [Text.startsWith, Symbol.spelling, Text.ofString]
    | cons d rest =>
      obtain ⟨hcolon, hdot, hequals, hgreater⟩ := h d (by simp)
      rcases hs with rfl | rfl | rfl | rfl | rfl | rfl <;>
        simp [Text.startsWith, Symbol.spelling, Text.ofString, Ne.symm hcolon, Ne.symm hdot, Ne.symm hequals,
          Ne.symm hgreater]
  rw [Piece.symbol?, List.find?_append, hnone, Option.none_or]

theorem cuts_single (s : Symbol) (h : s ∈ Symbol.single) {rest : Text} (hrest : SymbolEnds rest) :
    Cuts s.spelling [s.key] rest := by
  have hone : ∀ c : CodePoint, s.spelling = [c] → Piece.isGap c = false → c ≠ CodePoint.ofChar '/' →
      (c ≠ CodePoint.ofChar '\'' ∧ c ≠ CodePoint.ofChar '"') → c.isDigit = false → Piece.name? c rest = none →
      Symbol.single.find? (fun s => Text.startsWith (c :: rest) s.spelling) = some s →
      Cuts s.spelling [s.key] rest := by
    intro c hs hgap hslash hquote hdigit hname hfind
    have hfirst : Piece.first c rest = .ok (some s.key, 0) := by
      have hsymbol := (symbol?_of_ends c hrest).trans hfind
      simpa [hs] using Piece.first_of_symbol? hgap hslash hquote hdigit hname hsymbol
    rw [hs]
    exact Cuts.first (some s.key) hfirst
  simp only [Symbol.single, List.mem_cons, List.not_mem_nil, or_false] at h
  rcases h with rfl | rfl | rfl | rfl | rfl | rfl | rfl | rfl | rfl | rfl | rfl | rfl | rfl | rfl | rfl | rfl | rfl |
    rfl | rfl | rfl <;>
    exact hone _ rfl rfl (by decide) (by decide) (by decide) rfl rfl

def Symbol.firm : List Symbol :=
  [.semicolon, .bar, .ampersand, .openParen, .closeParen, .openBracket, .closeBracket, .openBrace, .closeBrace, .less,
    .greater, .comma, .star, .bang, .atSign]

/-- a symbol that begins no longer one, whatever follows -/
theorem cuts_firm (s : Symbol) (h : s ∈ Symbol.firm) (rest : Text) : Cuts s.spelling [s.key] rest := by
  have hone : ∀ c : CodePoint, s.spelling = [c] → Piece.first c rest = .ok (some s.key, 0) →
      Cuts s.spelling [s.key] rest := by
    intro c hs hfirst
    rw [hs]
    exact Cuts.first (some s.key) hfirst
  simp only [Symbol.firm, List.mem_cons, List.not_mem_nil, or_false] at h
  rcases h with rfl | rfl | rfl | rfl | rfl | rfl | rfl | rfl | rfl | rfl | rfl | rfl | rfl | rfl | rfl <;>
    exact hone _ rfl rfl

/-- a code point between tokens -/
theorem cuts_gap {c : CodePoint} (h : Piece.isGap c = true) (rest : Text) : Cuts [c] [] rest :=
  Cuts.first none (by simp [Piece.first, h])

/-! ## Keywords -/

theorem read_close {quote : CodePoint} (h : quote ≠ CodePoint.ofChar '\\') (rest : Text) :
    Literal.read quote (quote :: rest) = .ok ([], 1) := by
  rw [Literal.read.eq_def]
  simp [h]

theorem read_escape (quote : CodePoint) {e : CodePoint} (h : e ≠ CodePoint.ofChar 'u') (rest : Text) :
    Literal.read quote (CodePoint.ofChar '\\' :: e :: rest) =
      Literal.push (Literal.escaped e) 2 (Literal.read quote rest) := by
  rw [Literal.read.eq_def]
  simp [h]

theorem read_plain {quote c : CodePoint} (hescape : c ≠ CodePoint.ofChar '\\') (hquote : c ≠ quote)
    (hline : c ≠ CodePoint.ofChar '\n') (rest : Text) :
    Literal.read quote (c :: rest) = Literal.push c 1 (Literal.read quote rest) := by
  rw [Literal.read.eq_def]
  simp [hescape, hquote, hline]

/-- one code point of a quoted keyword -/
theorem read_keywordPoint (c : CodePoint) (rest : Text) :
    Literal.read (CodePoint.ofChar '\'') (keywordPoint c ++ rest) =
      Literal.push c (keywordPoint c).length (Literal.read (CodePoint.ofChar '\'') rest) := by
  have hescape : ∀ e : Char, e ≠ 'u' → Literal.read (CodePoint.ofChar '\'')
      ([CodePoint.ofChar '\\', CodePoint.ofChar e] ++ rest) =
        Literal.push (Literal.escaped (CodePoint.ofChar e)) 2 (Literal.read (CodePoint.ofChar '\'') rest) :=
    fun e he => read_escape _ (by simpa using he) rest
  unfold keywordPoint
  split
  · next h => exact h ▸ hescape '\\' (by decide)
  · split
    · next h =>
      rw [h]
      exact hescape '\'' (by decide)
    · split
      · next h => exact h ▸ hescape 'n' (by decide)
      · split
        · next h => exact h ▸ hescape 'r' (by decide)
        · split
          · next h => exact h ▸ hescape 't' (by decide)
          · exact read_plain ‹_› ‹_› ‹_› rest

/-- reading what a keyword was quoted as gives the keyword, and stops behind the closing quote -/
theorem read_quoted (value rest : Text) :
    Literal.read (CodePoint.ofChar '\'') (value.flatMap keywordPoint ++ CodePoint.ofChar '\'' :: rest) =
      .ok (value, (value.flatMap keywordPoint).length + 1) := by
  induction value with
  | nil => exact read_close (by decide) rest
  | cons c value ih =>
    rw [List.flatMap_cons, List.append_assoc, read_keywordPoint, ih]
    simp only [Literal.push, List.length_append]
    congr 2
    omega

/-- a quoted keyword is one literal, whatever follows -/
theorem Piece.first_quoted (value rest : Text) :
    Piece.first (CodePoint.ofChar '\'') (value.flatMap keywordPoint ++ [CodePoint.ofChar '\''] ++ rest) =
      .ok (some (.literal, value), (value.flatMap keywordPoint ++ [CodePoint.ofChar '\'']).length) := by
  have hread := read_quoted value rest
  simp [Piece.first, Piece.isGap, hread]

theorem cuts_keyword (value rest : Text) : Cuts (quoteKeyword value) [(.literal, value)] rest :=
  Cuts.first (some (.literal, value)) (Piece.first_quoted value rest)

/-! ## The tokens of a text -/

def Token.key (t : Token) : Key := (t.kind, t.value)

/-- a key that a token can have: a name is an identifier, and a symbol has its spelling -/
structure Lexical (k : Key) : Prop where
  name : k.1 = .name → IsIdentifier k.2
  symbol : ∀ s, k.1 = .symbol s → k.2 = s.spelling

theorem isIdentifier_of_name? {c : CodePoint} {rest value : Text} {n : Nat} (h : Piece.name? c rest = some (value, n)) :
    IsIdentifier value := by
  have htail : ∀ more : Text, ∀ d ∈ more.takeWhile Piece.isNamePart, Piece.isNamePart d = true :=
    fun _ d hd => List.all_eq_true.1 List.all_takeWhile d hd
  unfold Piece.name? at h
  split at h
  · split at h
    · cases h
    · split at h
      · next hstart =>
        cases h
        exact .intro hstart (htail _)
      · cases h
  · split at h
    · next hstart =>
      cases h
      exact .intro hstart (htail _)
    · cases h

theorem lexical_of_first {c : CodePoint} {rest : Text} {k : Key} {n : Nat} (h : Piece.first c rest = .ok (some k, n)) :
    Lexical k := by
  unfold Piece.first at h
  split at h
  · cases h
  split at h
  · cases h
  split at h
  · split at h
    · cases h
    · simp only [Except.ok.injEq, Prod.mk.injEq] at h
      unfold Piece.headComment? at h
      split at h
      · cases h.1
        exact ⟨nofun, nofun⟩
      · cases h.1
  split at h
  · split at h
    · cases h
      exact ⟨nofun, nofun⟩
    · cases h
    · cases h
  split at h
  · cases h
    exact ⟨nofun, nofun⟩
  split at h
  · next hname =>
    cases h
    exact ⟨fun _ => isIdentifier_of_name? hname, nofun⟩
  · split at h
    · cases h
      exact ⟨nofun, fun s hs => by cases hs; rfl⟩
    · cases h

theorem lexical_of_cut {source : Text} {pieces : List Piece} (h : Piece.cut source = .ok pieces) :
    ∀ k ∈ pieces.filterMap Piece.token, Lexical k := by
  fun_induction Piece.cut source generalizing pieces with
  | case1 => cases h; simp
  | case2 => cases h
  | case3 => cases h
  | case4 c rest token n hfirst more hmore ih =>
    cases h
    cases token with
    | none => simpa using ih hmore
    | some k =>
      intro l hl
      rw [List.filterMap_cons] at hl
      rcases List.mem_cons.1 hl with rfl | hl
      · exact lexical_of_first hfirst
      · exact ih hmore l hl

theorem Lexed.keys_ofPieces (m : Mark) (pieces : List Piece) :
    (Lexed.ofPieces m pieces).tokens.map Token.key = pieces.filterMap Piece.token := by
  induction pieces generalizing m with
  | nil => rfl
  | cons p pieces ih =>
    rw [Lexed.ofPieces, List.filterMap_cons]
    cases hp : p.token with
    | none => simpa using ih _
    | some k => simp [ih, Token.key]

theorem Lexed.lexical_of_ofSource {file : Path} {source : Text} {lexed : Lexed}
    (h : Lexed.ofSource file source = .ok lexed) : ∀ t ∈ lexed.tokens, Lexical t.key := by
  obtain ⟨pieces, hcut, rfl⟩ := Lexed.ofSource_eq_ok_iff.1 h
  intro t ht
  refine lexical_of_cut hcut t.key ?_
  rw [← Lexed.keys_ofPieces Mark.start]
  exact List.mem_map_of_mem ht

/-- a text that is cut into tokens of some keys, up to its end, is a text of such tokens -/
theorem Cuts.ofSource {t : Text} {keys : List Key} (h : Cuts t keys []) (file : Path) :
    ∃ lexed, Lexed.ofSource file t = .ok lexed ∧ lexed.tokens.map Token.key = keys := by
  obtain ⟨front, hcut, rfl⟩ := h [] (by rw [Piece.cut])
  simp only [List.append_nil] at hcut
  exact ⟨_, Lexed.ofSource_eq_ok_iff.2 ⟨_, hcut, rfl⟩, Lexed.keys_ofPieces _ _⟩

namespace Source

def Word.key (w : Word) : Key := w.token.key

/-- words hold tokens of the text only -/
theorem mem_of_mem_wordsBehind {comment : Option Text} {tokens : List Token} {w : Word}
    (h : w ∈ wordsBehind comment tokens) : w.token ∈ tokens := by
  induction tokens generalizing comment with
  | nil => cases h
  | cons t ts ih =>
    unfold wordsBehind at h
    split at h
    · exact List.mem_cons_of_mem _ (ih h)
    · rcases List.mem_cons.1 h with rfl | h
      · exact List.mem_cons_self
      · exact List.mem_cons_of_mem _ (ih h)

/-- without head comments there is one word for each token -/
theorem keys_wordsOf {tokens : List Token} (h : ∀ t ∈ tokens, t.kind ≠ .headComment) :
    (wordsOf tokens).map Word.key = tokens.map Token.key := by
  unfold wordsOf
  induction tokens with
  | nil => rfl
  | cons t ts ih =>
    rw [wordsBehind, if_neg (h t List.mem_cons_self)]
    simp [Word.key, ih fun u hu => h u (List.mem_cons_of_mem _ hu)]

end Source

end Rulebook
