/-
What the small readers of words give: tokens that are wanted, what stands behind a symbol, names and qualified names. A
symbol is known by its kind alone, a name by its kind and, where a certain word is meant, by its value.

`gives_qualified` is the first statement about what may follow: a name that stands alone is read only where no two
colons follow, since they would make it the first half of a longer one.
-/
import Rulebook.Source.Definition
import Rulebook.Proofs.Reading

namespace Rulebook

@[simp] theorem Token.isSymbol_iff (t : Token) (s : Symbol) : t.isSymbol s = true ↔ t.kind = .symbol s := by
  simp [Token.isSymbol]

@[simp] theorem Token.isWord_iff (t : Token) (word : Text) :
    t.isWord word = true ↔ t.kind = .name ∧ t.value = word := by
  simp [Token.isWord]

namespace Source

open Rulebook.Reading

abbrev Word.Is (w : Word) (s : Symbol) : Prop := w.token.kind = .symbol s

abbrev Word.IsName (w : Word) : Prop := w.token.kind = .name

abbrev Word.IsLiteral (w : Word) : Prop := w.token.kind = .literal

theorem Word.Is.kind {w : Word} {s : Symbol} (h : w.Is s) : w.token.kind = .symbol s := h

theorem Word.IsName.kind {w : Word} (h : w.IsName) : w.token.kind = .name := h

theorem Word.IsLiteral.kind {w : Word} (h : w.IsLiteral) : w.token.kind = .literal := h

/-! ## What stands at the front -/

@[simp] theorem atSymbol_nil (s : Symbol) : atSymbol s [] = false := rfl

@[simp] theorem atSymbol_cons (s : Symbol) (w : Word) (ws : List Word) : atSymbol s (w :: ws) = true ↔ w.Is s := by
  simp [atSymbol, Word.Is]

@[simp] theorem atName_cons (w : Word) (ws : List Word) : atName (w :: ws) = true ↔ w.IsName := by
  simp [atName, Word.IsName]

@[simp] theorem atWord_cons (word : Text) (w : Word) (ws : List Word) :
    atWord word (w :: ws) = true ↔ w.IsName ∧ w.token.value = word := by
  simp [atWord, Word.IsName]

theorem atMark_iff (s : Symbol) (ws : List Word) :
    AtMark (fun w : Word => w.token.isSymbol s) ws ↔ atSymbol s ws = true := by
  cases ws <;> simp [atSymbol]

theorem atMark_word_iff (word : Text) (ws : List Word) :
    AtMark (fun w : Word => w.token.isWord word) ws ↔ atWord word ws = true := by
  cases ws <;> simp [atWord]

/-! ## Tokens -/

@[simp] theorem gives_complain {α : Type} {takes : Bool} (words : List Word) (c : Complaint) (a : α)
    (rest : List Word) : ¬ Gives (complain words c : Reading α takes words) a rest := by
  simp [complain]

@[simp] theorem gives_takeIf (wanted : Token → Bool) (c : Complaint) (words rest : List Word) (t : Token) :
    (takeIf wanted c words).Gives t rest ↔ ∃ w, words = w :: rest ∧ wanted w.token = true ∧ w.token = t := by
  cases words with
  | nil => simp [takeIf]
  | cons w ws =>
    cases hw : wanted w.token
    · simp only [takeIf, hw, Bool.false_eq_true, ↓reduceIte, gives_complain, List.cons.injEq, false_iff]
      intro h
      rcases h with ⟨_, ⟨rfl, _⟩, h, _⟩
      simp [hw] at h
    · simp only [takeIf, hw, ↓reduceIte, gives_first, List.cons.injEq]
      refine ⟨?_, ?_⟩
      · intro hread
        rcases hread with ⟨rfl, rfl⟩
        exact ⟨w, ⟨rfl, rfl⟩, hw, rfl⟩
      · intro hread
        rcases hread with ⟨_, ⟨rfl, rfl⟩, _, rfl⟩
        exact ⟨rfl, rfl⟩

@[simp] theorem gives_take (kind : TokenKind) (what : Text) (words rest : List Word) (t : Token) :
    (take kind what words).Gives t rest ↔ ∃ w, words = w :: rest ∧ w.token.kind = kind ∧ w.token = t := by
  simp [take]

@[simp] theorem gives_takeSymbol (s : Symbol) (words rest : List Word) (t : Token) :
    (takeSymbol s words).Gives t rest ↔ ∃ w, words = w :: rest ∧ w.Is s ∧ w.token = t := by
  simp [takeSymbol, Word.Is]

@[simp] theorem gives_takeWord (word : Text) (words rest : List Word) (t : Token) :
    (takeWord word words).Gives t rest ↔
      ∃ w, words = w :: rest ∧ (w.IsName ∧ w.token.value = word) ∧ w.token = t := by
  simp [takeWord, Word.IsName]

@[simp] theorem gives_behindSymbol? {α : Type} {takes : Bool} (s : Symbol)
    (read : (r : List Word) → Reading α takes r) (words rest : List Word) (a : Option α) :
    (behindSymbol? s read words).Gives a rest ↔
      (a = none ∧ rest = words ∧ atSymbol s words = false) ∨
        ∃ x mid v, words = x :: mid ∧ x.Is s ∧ (read mid).Gives v rest ∧ a = some v := by
  simp [behindSymbol?, gives_behindMark?, atMark_iff, Word.Is]

@[simp] theorem gives_behindWord? {α : Type} {takes : Bool} (word : Text)
    (read : (r : List Word) → Reading α takes r) (words rest : List Word) (a : Option α) :
    (behindWord? word read words).Gives a rest ↔
      (a = none ∧ rest = words ∧ atWord word words = false) ∨
        ∃ x mid v, words = x :: mid ∧ (x.IsName ∧ x.token.value = word) ∧ (read mid).Gives v rest ∧ a = some v := by
  simp [behindWord?, gives_behindMark?, atMark_word_iff, Word.IsName]

/-- values behind symbols of one kind -/
abbrev BehindSymbols {α : Type} (s : Symbol) (reads : List Word → α → List Word → Prop) :
    List Word → List α → List Word → Prop :=
  Behind (fun w : Word => w.token.isSymbol s) reads

theorem gives_behindSymbols {α : Type} {takes : Bool} (s : Symbol) (words : List Word)
    (read : (r : List Word) → Reading α takes r) (as : List α) (rest : List Word) :
    (behindSymbols s words fun r _ => read r).Gives as rest ↔
      BehindSymbols s (fun r a mid => (read r).Gives a mid) words as rest :=
  gives_behindMarks _ read words _ as rest

/-! ## Names -/

/-- words that are a name, alone or behind another one and two colons -/
inductive Named : List Word → Token × Option Token → Prop where
  | plain {n : Word} : n.IsName → Named [n] (n.token, none)
  | qualified {q c n : Word} : q.IsName → c.Is .doubleColon → n.IsName → Named [q, c, n] (q.token, some n.token)

theorem gives_qualified (what : Text) (words rest : List Word) (v : Token × Option Token) :
    (qualified what words).Gives v rest ↔
      ∃ ws, words = ws ++ rest ∧ Named ws v ∧ (v.2 = none → atSymbol .doubleColon rest = false) := by
  simp only [qualified, gives_next', gives_take, gives_map, gives_behindSymbol?]
  refine ⟨?_, ?_⟩
  · intro h
    rcases h with ⟨_, _, ⟨n, rfl, hn, rfl⟩, _, ⟨rfl, rfl, hc⟩ | ⟨c, mid, t, rfl, hc, ⟨m, rfl, hm, rfl⟩, rfl⟩, rfl⟩
    · exact ⟨[n], rfl, .plain hn, fun _ => hc⟩
    · exact ⟨[n, c, m], rfl, .qualified hn hc hm, by simp⟩
  · intro h
    rcases h with ⟨_, rfl, hv, hrest⟩
    cases hv with
    | @plain n hn =>
      exact ⟨_, rest, ⟨n, rfl, hn, rfl⟩, _, .inl ⟨rfl, rfl, hrest rfl⟩, rfl⟩
    | @qualified q c n hq hc hn =>
      exact ⟨_, [c, n] ++ rest, ⟨q, rfl, hq, rfl⟩, _, .inr ⟨c, n :: rest, _, rfl, hc, ⟨n, rfl, hn, rfl⟩, rfl⟩, rfl⟩

theorem gives_typeRef (words rest : List Word) (t : Text) :
    (typeRef words).Gives t rest ↔
      ∃ ws v, words = ws ++ rest ∧ Named ws v ∧ (v.2 = none → atSymbol .doubleColon rest = false) ∧
        writtenName v = t := by
  simp only [typeRef, gives_map, gives_qualified]
  grind

theorem gives_ruleName (words rest : List Word) (t : Text) :
    (ruleName words).Gives t rest ↔
      ∃ ws v, words = ws ++ rest ∧ Named ws v ∧ (v.2 = none → atSymbol .doubleColon rest = false) ∧
        writtenName v = t := by
  simp only [ruleName, gives_map, gives_qualified]
  grind

end Source

end Rulebook
