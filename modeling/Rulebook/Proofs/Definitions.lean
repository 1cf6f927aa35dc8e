/-
Printed rules as a whole. Behind its header a rule has a colon, a definition and a semicolon. The definition of an
enumeration is a row of literals; these are printed and read here (`enumLiterals_of_keys`), and those of the other
kinds come from `Element.cutsAlone_body`. `cuts_declaration` says which tokens the text of a rule is cut into.
-/
import Rulebook.Proofs.Declarations
import Rulebook.Proofs.Nesting

namespace Rulebook

open Source Rulebook.Reading Element

/-! ## Literals of enumerations -/

theorem IsEnumLiteral.map {ρ σ : Type} {e : Element ρ} (h : IsEnumLiteral e) (f : ρ → σ) : IsEnumLiteral (e.map f) := by
  obtain ⟨n, k, hn, rfl⟩ := h
  exact ⟨n, k, hn, rfl⟩

theorem Enumerated.map {ρ σ : Type} {e : Element ρ} (h : Enumerated e) (f : ρ → σ) : Enumerated (e.map f) := by
  cases h with
  | one h => exact .one (h.map f)
  | choice hlen hes =>
    rw [Element.map, mapList_eq_map]
    exact .choice (by simpa using hlen) (List.forall_mem_map.2 fun e he => (hes e he).map f)

theorem IsEnumLiteral.keys_eq {e : Outline} (h : IsEnumLiteral e) (context : Nat) : e.keys context = e.bodyKeys := by
  obtain ⟨n, k, -, rfl⟩ := h
  exact keys_eq_bodyKeys rfl (absurd · (Nat.lt_irrefl 4))

theorem cutsAlone_enumLiteral {e : Outline} (h : IsEnumLiteral e) : CutsAlone (e.body id) e.bodyKeys := by
  obtain ⟨n, k, hn, rfl⟩ := h
  intro rest hrest
  cases k with
  | none => exact cuts_name hn hrest.1
  | some v =>
    have hequals : Cuts (Text.ofString "=") [Symbol.equals.key] (quoteKeyword v ++ rest) :=
      cuts_single .equals (by decide) (by simp [SymbolEnds, quoteKeyword, Text.ofString])
    have htext : body id (.literal .none n (some ⟨.none, v⟩) : Outline) =
        n ++ (Text.ofString "=" ++ quoteKeyword v) := by simp [body]
    rw [Option.map_some, htext]
    exact (cuts_name hn (nameEnds_cons (by decide) _)).append (hequals.append (cuts_keyword v rest))

theorem holds_enumLiteral {e : Outline} (h : IsEnumLiteral e) : Holds e.bodyKeys := by
  obtain ⟨n, k, -, rfl⟩ := h
  cases k with
  | none => exact .one (inner_name n)
  | some v => exact .cons (inner_name n) (.inner (by decide) (.one (inner_literal v)))

theorem cutsAlone_enumerated {e : Outline} (h : Enumerated e) : CutsAlone (e.body id) e.bodyKeys := by
  cases h with
  | one h => exact cutsAlone_enumLiteral h
  | choice _ hes => exact cutsAlone_compound (by decide) fun e he => cutsAlone_enumLiteral (hes e he)

theorem holds_enumerated {e : Outline} (h : Enumerated e) : Holds e.bodyKeys := by
  cases h with
  | one h => exact holds_enumLiteral h
  | choice hlen hes =>
    exact holds_members (List.ne_nil_of_length_pos (by omega)) fun e he => holds_enumLiteral (hes e he)

/-! ### Reading literals -/

theorem enumLiteral_of_keys {e : Outline} (h : IsEnumLiteral e) {ws : List Word} (hws : ws.map Word.key = e.bodyKeys)
    {rest : List Word} (hrest : atSymbol .equals rest = false) :
    ∃ t, (enumLiteral (ws ++ rest)).Gives t rest ∧ outline t = e := by
  obtain ⟨n, k, -, rfl⟩ := h
  cases k with
  | none =>
    obtain ⟨w, rfl, hw⟩ := words_one hws
    obtain ⟨hkind, rfl⟩ := Word.value_of_key hw
    refine ⟨.literal .none w.token.value none, ?_, rfl⟩
    rw [enumLiteral, List.singleton_append, (gives_takeName hkind _ _).next_iff, gives_map]
    exact ⟨none, (gives_behindSymbol? ..).2 (.inl ⟨rfl, rfl, hrest⟩), rfl⟩
  | some v =>
    obtain ⟨w, more, rfl, hw, hmore⟩ := words_cons hws
    obtain ⟨b, more, rfl, hb, hmore⟩ := words_cons hmore
    obtain ⟨l, rfl, hl⟩ := words_one hmore
    obtain ⟨hkind, rfl⟩ := Word.value_of_key hw
    obtain ⟨hliteral, rfl⟩ := Word.value_of_key hl
    refine ⟨.literal .none w.token.value (some ⟨.none, l.token.value⟩), ?_, rfl⟩
    rw [enumLiteral, List.cons_append, (gives_takeName hkind _ _).next_iff, gives_map]
    refine ⟨some l.token, (gives_behindSymbol? ..).2 (.inr ?_), rfl⟩
    refine ⟨b, l :: rest, l.token, rfl, Word.is_of_key hb, ?_, rfl⟩
    exact (gives_take ..).2 ⟨l, rfl, hliteral, rfl⟩

theorem atSymbol_of_behind {α : Type} {s s' : Symbol} {reads : List Word → α → List Word → Prop}
    {words rest : List Word}
    {as : List α} (h : BehindSymbols s reads words as rest) (hne : s ≠ s') (hrest : atSymbol s' rest = false) :
    atSymbol s' words = false := by
  cases h with
  | stop _ => exact hrest
  | more hx _ _ => exact atSymbol_of_is (by simpa using hx) hne _

/-- literals with bars before them are read one after the other -/
theorem enumTail_of_keys {es : List Outline} (h : ∀ e ∈ es, IsEnumLiteral e) {ws : List Word}
    (hws : ws.map Word.key = es.flatMap fun e => Symbol.bar.key :: e.bodyKeys) {rest : List Word}
    (hbar : atSymbol .bar rest = false) (hequals : atSymbol .equals rest = false) :
    ∃ ts, BehindSymbols .bar (fun r a mid => (enumLiteral r).Gives a mid) (ws ++ rest) ts rest ∧
      ts.map outline = es := by
  induction es generalizing ws with
  | nil =>
    rw [words_nil hws]
    exact ⟨[], .stop (by simp [atMark_iff, hbar]), rfl⟩
  | cons e es ih =>
    rw [List.flatMap_cons] at hws
    obtain ⟨us, vs, rfl, hus, hvs⟩ := words_append hws
    obtain ⟨b, us, rfl, hb, hus⟩ := words_cons hus
    obtain ⟨ts, hts, rfl⟩ := ih (fun x hx => h x (List.mem_cons_of_mem _ hx)) hvs
    obtain ⟨t, ht, rfl⟩ := enumLiteral_of_keys (h e List.mem_cons_self) hus (atSymbol_of_behind hts (by decide) hequals)
    refine ⟨t :: ts, ?_, rfl⟩
    rw [List.append_assoc, List.cons_append]
    exact .more (by simpa using Word.is_of_key hb) ht hts

theorem intercalate_cons {sep ks : List Key} {kss : List (List Key)} :
    List.intercalate sep (ks :: kss) = ks ++ kss.flatMap fun ls => sep ++ ls := by
  induction kss generalizing ks with
  | nil => simp
  | cons ls kss ih =>
    rw [List.intercalate_cons_cons, ih]
    simp

/-- words with the keys of an enumeration are read as its literals -/
theorem enumLiterals_of_keys {e : Outline} (h : Enumerated e) {ws : List Word} (hws : ws.map Word.key = e.keys 1)
    {rest : List Word} (hbar : atSymbol .bar rest = false) (hequals : atSymbol .equals rest = false) :
    ∃ t, (enumLiterals (ws ++ rest)).Gives t rest ∧ outline t = e := by
  obtain ⟨first, es, hes, hkeys, he⟩ : ∃ first es, (∀ x ∈ first :: es, IsEnumLiteral x) ∧
      e.keys 1 = first.bodyKeys ++ es.flatMap (fun x => Symbol.bar.key :: x.bodyKeys) ∧
        e = if es = [] then first else .compound .none .choice (first :: es) := by
    cases h with
    | one h => exact ⟨e, [], List.forall_mem_singleton.2 h, by simp [h.keys_eq], rfl⟩
    | @choice es hlen hes =>
      obtain ⟨first, es, rfl⟩ := List.exists_cons_of_length_pos (show 0 < es.length by omega)
      have hne : es ≠ [] := by
        rintro rfl
        simp at hlen
      refine ⟨first, es, hes, ?_, (if_neg hne).symm⟩
      have hmembers : (first :: es).map (keys 2) = first.bodyKeys :: es.map bodyKeys := by
        rw [List.map_cons, (hes first List.mem_cons_self).keys_eq]
        exact congrArg _ (List.map_congr_left fun x hx => (hes x (List.mem_cons_of_mem _ hx)).keys_eq 2)
      rw [keys_eq_bodyKeys rfl fun _ => Nat.le_refl 1, bodyKeys_compound, Gathering.memberContext, hmembers,
        intercalate_cons, List.flatMap_map]
      rfl
  rw [hkeys] at hws
  obtain ⟨us, vs, rfl, hus, hvs⟩ := words_append hws
  obtain ⟨ts, hts, rfl⟩ := enumTail_of_keys (fun x hx => hes x (List.mem_cons_of_mem _ hx)) hvs hbar hequals
  obtain ⟨t, ht, rfl⟩ := enumLiteral_of_keys (hes first List.mem_cons_self) hus
    (atSymbol_of_behind hts (by decide) hequals)
  refine ⟨gather .choice t ts, ?_, ?_⟩
  · rw [List.append_assoc, enumLiterals, ht.next_iff, gives_map]
    exact ⟨ts, (gives_behindSymbols ..).2 hts, rfl⟩
  · rw [he, outline_gather]
    simp

/-! ## The text of a rule -/

theorem cuts_gaps {t : Text} (h : ∀ c ∈ t, Piece.isGap c = true) (rest : Text) : Cuts t [] rest := by
  induction t with
  | nil => exact .nil rest
  | cons c t ih =>
    exact Cuts.append (cuts_gap (h c List.mem_cons_self) (t ++ rest)) (ih fun d hd => h d (List.mem_cons_of_mem _ hd))

/-- the definition can be cut, and so can the alternatives that stand on lines of their own -/
def CutsInLines (e : Outline) : Prop :=
  CutsAlone (e.body id) e.bodyKeys ∧ ∀ d es, e = .compound d .choice es → ∀ x ∈ es, CutsAlone (x.body id) x.bodyKeys

theorem cutsInLines_formed {m : Mode} {e : Outline} (h : Formed m e) : CutsInLines e := by
  refine ⟨cutsAlone_body h, ?_⟩
  rintro d es rfl x hx
  cases h with
  | compound _ _ _ hes => exact cutsAlone_body (hes x hx)

theorem cutsInLines_enumerated {e : Outline} (h : Enumerated e) : CutsInLines e := by
  refine ⟨cutsAlone_enumerated h, ?_⟩
  rintro d es rfl x hx
  cases h with
  | one h =>
    obtain ⟨n, k, -, hcontra⟩ := h
    cases hcontra
  | choice _ hes => exact cutsAlone_enumLiteral (hes x hx)

theorem definitionText_map {ρ : Type} (name : ρ → Text) (e : Element ρ) :
    Declaration.definitionText name e = Declaration.definitionText id (e.map name) := by
  have hother : Declaration.definitionText name e = e.text name 1 →
      Declaration.definitionText id (e.map name) = (e.map name).text id 1 →
        Declaration.definitionText name e = Declaration.definitionText id (e.map name) :=
    fun hleft hright => by rw [hleft, hright, text_map]
  cases e with
  | compound d g es =>
    obtain ⟨c, p⟩ := d
    by_cases hlines : c = none ∧ p = none ∧ g = .choice
    · obtain ⟨rfl, rfl, rfl⟩ := hlines
      rw [Element.map, Declaration.definitionText, Declaration.definitionText, mapList_eq_map, texts_eq_map, texts_eq_map,
        List.map_map]
      exact congrArg _ (List.map_congr_left fun e _ => (text_map name 2 e).symm)
    · cases c with
      | some c => cases p <;> exact hother rfl rfl
      | none =>
        cases p with
        | some p => exact hother rfl rfl
        | none =>
          cases g with
          | choice => exact absurd ⟨rfl, rfl, rfl⟩ hlines
          | _ => exact hother rfl rfl
  | _ => exact hother rfl rfl

/-- line breaks or not, a definition is cut into the same tokens -/
theorem cuts_definitionText {e : Outline} (h : CutsInLines e) :
    CutsAlone (Declaration.definitionText id e) (e.keys 1) := by
  unfold Declaration.definitionText
  split
  · next es =>
    have hgap : ∀ t : Text, (∀ c ∈ t, Piece.isGap c = true) → ∀ rest, Cuts t [] rest := fun t ht => cuts_gaps ht
    have hsep : ∀ rest, Cuts (Text.ofString "\n    | ") [Symbol.bar.key] rest := fun rest =>
      (hgap (Text.ofString "\n    ") (by decide) (Text.ofString "| " ++ rest)).append
        ((cuts_firm .bar (by decide) (Text.ofString " " ++ rest)).append (hgap (Text.ofString " ") (by decide) rest))
    intro rest hrest
    rw [keys_eq_bodyKeys rfl fun _ => Nat.le_refl 1, bodyKeys_compound, texts_eq_map]
    exact cuts_intercalate hsep (fun _ => ends_cons (by decide) _)
      (fun x hx => cutsAlone_dressed 2 x (h.2 _ es rfl x hx)) rest hrest
  · exact cutsAlone_dressed 1 e h.1

/-- the tokens of a rule with this definition -/
def declarationKeys {ρ : Type} (r : Declaration ρ) (e : Outline) : List Key :=
  r.headerKeys ++ (Symbol.colon.key :: (e.keys 1 ++ [Symbol.semicolon.key]))

/-- a rule is printed as its header, a colon, its definition on lines of its own and a semicolon -/
theorem text_of_definition {ρ : Type} (name : ρ → Text) {r : Declaration ρ} {e : Element ρ}
    (he : r.definition = some e) :
    r.text name = r.header ++ (Text.ofString ":" ++
      (Text.ofString "\n    " ++ (Declaration.definitionText id (e.map name) ++ Text.ofString ";"))) := by
  rw [Declaration.text, he, ← definitionText_map]
  simp [Text.ofString]

/-- the text of a rule is cut into the tokens of its header and of its definition, whatever stands behind it -/
theorem cuts_declaration {ρ : Type} (name : ρ → Text) {r : Declaration ρ} {e : Element ρ}
    (hhead : Headed r.kind r.name r.typeName) (he : r.definition = some e) (h : CutsInLines (e.map name)) (rest : Text) :
    Cuts (r.text name) (declarationKeys r (e.map name)) rest := by
  have hsemicolon : Cuts (Text.ofString ";") [Symbol.semicolon.key] rest := cuts_firm .semicolon (by decide) rest
  have hbody := cuts_definitionText h (Text.ofString ";" ++ rest) (ends_cons (by decide) _)
  have hgaps := cuts_gaps (t := Text.ofString "\n    ") (by decide)
    (Declaration.definitionText id (e.map name) ++ Text.ofString ";" ++ rest)
  have hcolon : Cuts (Text.ofString ":") [Symbol.colon.key]
      (Text.ofString "\n    " ++ (Declaration.definitionText id (e.map name) ++ Text.ofString ";") ++ rest) :=
    cuts_single .colon (by decide) (ends_cons (by decide) _).2
  have hheader : Cuts r.header r.headerKeys (Text.ofString ":" ++
      (Text.ofString "\n    " ++ (Declaration.definitionText id (e.map name) ++ Text.ofString ";")) ++ rest) :=
    cuts_header hhead (nameEnds_cons isNamePart_colon _)
  rw [text_of_definition name he]
  exact hheader.append (hcolon.append (hgaps.append (hbody.append hsemicolon)))

end Rulebook
