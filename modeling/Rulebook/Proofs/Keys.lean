/-
The tokens of a printed definition. `Element.keys` goes through a definition as `Element.text` does and lists the kinds
and values of the tokens, and `cuts_text` says that the printed text is cut into exactly these. Blanks and line breaks
are gone from here on, so nothing about white space has to be said again.
-/
import Rulebook.Proofs.Shape
import Mathlib.Data.List.TakeWhile

namespace Rulebook

/-- the tokens of a name, alone or with its qualifier -/
def nameKeys (t : Text) : List Key :=
  match t.dropWhile (fun c => c ≠ CodePoint.ofChar ':') with
  | _ :: _ :: name => [(.name, t.takeWhile fun c => c ≠ CodePoint.ofChar ':'), Symbol.doubleColon.key, (.name, name)]
  | _ => [(.name, t)]

/-- the token of an operator of assignments -/
def operatorKey (o : Text) : Key :=
  if o = "=" then Symbol.equals.key else if o = "+=" then Symbol.plusEquals.key else Symbol.questionEquals.key

def Cardinality.key : Cardinality → Key
  | .optional => Symbol.question.key
  | .any => Symbol.star.key
  | .atLeastOne => Symbol.plus.key

def Predicate.key : Predicate → Key
  | .syntactic => Symbol.fatArrow.key
  | .firstToken => Symbol.arrow.key

def Gathering.keys : Gathering → List Key
  | .choice => [Symbol.bar.key]
  | .anyOrder => [Symbol.ampersand.key]
  | .sequence => []
  | .plain => []

def parenKeys (keys : List Key) : List Key := Symbol.openParen.key :: (keys ++ [Symbol.closeParen.key])

namespace Element

/-- tokens with the parentheses and the decoration of an element around them -/
def dressKeys (context : Nat) (e : Outline) (body : List Key) : List Key :=
  (e.decoration.predicate.map Predicate.key).toList ++
    ((if e.parenthesized context then parenKeys body else body) ++ (e.decoration.cardinality.map Cardinality.key).toList)

mutual

def bodyKeys : Outline → List Key
  | keyword _ v => [(.literal, v)]
  | call _ n => nameKeys n
  | assignment _ f o t => (.name, f) :: operatorKey o :: dressKeys 4 t (bodyKeys t)
  | crossReference _ n t =>
    Symbol.openBracket.key :: (nameKeys n ++ (bodyKeysOption t ++ [Symbol.closeBracket.key]))
  | action _ n none _ => Symbol.openBrace.key :: (nameKeys n ++ [Symbol.closeBrace.key])
  | action _ n (some f) o =>
    Symbol.openBrace.key :: (nameKeys n ++
      [Symbol.dot.key, (.name, f), operatorKey (o.getD "None"), (.name, "current"), Symbol.closeBrace.key])
  | compound _ g es => List.intercalate g.keys (keysList g.memberContext es)
  | range _ l r => [(.literal, l.value), Symbol.doubleDot.key, (.literal, r.value)]
  | wildcard _ => [Symbol.dot.key]
  | endOfFile _ => [(.name, "EOF")]
  | negated _ e => Symbol.bang.key :: dressKeys 4 e (bodyKeys e)
  | upTo _ e => Symbol.arrow.key :: dressKeys 4 e (bodyKeys e)
  | literal _ n none => [(.name, n)]
  | literal _ n (some k) => [(.name, n), Symbol.equals.key, (.literal, k.value)]
  | bare _ => []

/-- the tokens of the terminal of a cross reference, if it has one -/
def bodyKeysOption : Option Outline → List Key
  | none => []
  | some e => Symbol.bar.key :: dressKeys 4 e (bodyKeys e)

/-- the tokens of some elements, each where one that binds like `context` is expected -/
def keysList (context : Nat) : List Outline → List (List Key)
  | [] => []
  | e :: es => dressKeys context e (bodyKeys e) :: keysList context es

end

/-- the tokens of an element where one that binds like `context` is expected -/
def keys (context : Nat) (e : Outline) : List Key :=
  dressKeys context e (bodyKeys e)

/-- an undecorated element has no parentheses where it binds tightly enough -/
theorem keys_eq_bodyKeys {e : Outline} {context : Nat} (hnone : e.decoration.isNone = true)
    (hbinding : e.binding < 4 → context ≤ e.binding) : e.keys context = e.bodyKeys := by
  have hopen : ¬ e.parenthesized context = true := by
    simp only [parenthesized, hnone, Bool.not_true, Bool.false_or, Bool.and_false, Bool.or_false, Bool.and_eq_true,
      decide_eq_true_eq, not_and, not_lt]
    exact hbinding
  rw [keys, dressKeys, if_neg hopen, Decoration.eq_none_of_isNone hnone]
  simp [Decoration.none]

theorem keysList_eq_map (context : Nat) (es : List Outline) : keysList context es = es.map (keys context) := by
  induction es with
  | nil => rfl
  | cons e es ih => rw [keysList, ih, List.map_cons, keys]

theorem bodyKeys_compound (d : Decoration) (g : Gathering) (es : List Outline) :
    bodyKeys (compound d g es) = List.intercalate g.keys (es.map (keys g.memberContext)) := by
  rw [bodyKeys, keysList_eq_map]

end Element

/-! ## Calls as their names -/

namespace Element

variable {ρ σ : Type}

theorem dressed_map (f : ρ → σ) (context : Nat) (e : Element ρ) (t : Text) :
    dressed context (e.map f) t = dressed context e t := by
  cases e <;> rfl

mutual

/-- a printed definition shows its calls by their names only -/
theorem body_map (name : ρ → Text) : (e : Element ρ) → body id (e.map name) = body name e
  | keyword _ _ => rfl
  | call _ _ => rfl
  | assignment _ f o t => by rw [map, body, body, dressed_map, body_map name t]
  | crossReference _ n t => by rw [map, body, body, bodyOption_map name t]
  | action _ _ none _ => rfl
  | action _ _ (some _) _ => rfl
  | compound _ g es => by rw [map, body, body, texts_map name g.memberContext es]
  | range _ _ _ => rfl
  | wildcard _ => rfl
  | endOfFile _ => rfl
  | negated _ e => by rw [map, body, body, dressed_map, body_map name e]
  | upTo _ e => by rw [map, body, body, dressed_map, body_map name e]
  | literal _ _ none => rfl
  | literal _ _ (some _) => rfl
  | bare _ => rfl

theorem bodyOption_map (name : ρ → Text) :
    (o : Option (Element ρ)) → bodyOption id (mapOption name o) = bodyOption name o
  | none => rfl
  | some e => by rw [mapOption, bodyOption, bodyOption, dressed_map, body_map name e]

theorem texts_map (name : ρ → Text) (context : Nat) :
    (es : List (Element ρ)) → texts id context (mapList name es) = texts name context es
  | [] => rfl
  | e :: es => by rw [mapList, texts, texts, dressed_map, body_map name e, texts_map name context es]

end

theorem text_map (name : ρ → Text) (context : Nat) (e : Element ρ) :
    text id context (e.map name) = text name context e := by
  rw [text, text, dressed_map, body_map]

end Element

/-! ## What ends a token -/

theorem isNamePart_colon : Piece.isNamePart (CodePoint.ofChar ':') = false := by decide

theorem nameEnds_cons {c : CodePoint} (h : Piece.isNamePart c = false) (rest : Text) : NameEnds (c :: rest) := by
  simpa [NameEnds] using h

theorem ends_cons {c : Char} (h : Piece.isNamePart (CodePoint.ofChar c) = false ∧ c ∉ [':', '.', '=', '>'])
    (rest : Text) : Ends (CodePoint.ofChar c :: rest) := by
  obtain ⟨hname, hsymbol⟩ := h
  simp only [List.mem_cons, List.not_mem_nil, or_false, not_or] at hsymbol
  exact ⟨nameEnds_cons hname rest, by simpa [SymbolEnds] using hsymbol⟩

/-- an identifier begins with nothing that a symbol could go on with -/
theorem symbolEnds_identifier {t : Text} (h : IsIdentifier t) (rest : Text) : SymbolEnds (t ++ rest) := by
  obtain @⟨c, tail, hc, -⟩ := h
  have hother : ∀ d : CodePoint, Piece.isNameStart d = false → c ≠ d := by
    rintro d hd rfl
    simp [hc] at hd
  simpa [SymbolEnds] using ⟨hother _ (by decide), hother _ (by decide), hother _ (by decide), hother _ (by decide)⟩

theorem symbolEnds_callable {m : Source.Mode} {t : Text} (h : Callable m t) (rest : Text) : SymbolEnds (t ++ rest) := by
  cases h with
  | plain hn _ => exact symbolEnds_identifier hn rest
  | qualified hq _ _ =>
    rw [List.append_assoc, List.append_assoc]
    exact symbolEnds_identifier hq _

/-! ## Names -/

theorem isIdentifier_noColon {t : Text} (h : IsIdentifier t) : ∀ c ∈ t, (decide (c ≠ CodePoint.ofChar ':')) = true := by
  have hpart : ∀ c ∈ t, Piece.isNamePart c = true := by
    obtain ⟨hc, htail⟩ := h
    exact List.forall_mem_cons.2 ⟨isNamePart_of_isNameStart hc, htail⟩
  intro c hc
  have := hpart c hc
  rw [decide_eq_true_eq]
  rintro rfl
  simp [isNamePart_colon] at this

theorem nameKeys_plain {n : Text} (h : IsIdentifier n) : nameKeys n = [(.name, n)] := by
  have hdrop : n.dropWhile (fun c => c ≠ CodePoint.ofChar ':') = [] :=
    List.dropWhile_eq_nil_iff.2 (isIdentifier_noColon h)
  rw [nameKeys, hdrop]

theorem nameKeys_qualified {q : Text} (n : Text) (h : IsIdentifier q) :
    nameKeys (q ++ "::" ++ n) = [(.name, q), Symbol.doubleColon.key, (.name, n)] := by
  have hq := isIdentifier_noColon h
  have hdrop : (q ++ "::" ++ n : Text).dropWhile (fun c => c ≠ CodePoint.ofChar ':') =
      CodePoint.ofChar ':' :: CodePoint.ofChar ':' :: n := by
    rw [List.append_assoc, List.dropWhile_append_of_pos hq]
    simp [Text.ofString]
  have htake : (q ++ "::" ++ n : Text).takeWhile (fun c => c ≠ CodePoint.ofChar ':') = q := by
    rw [List.append_assoc]
    exact takeWhile_append_of_ends hq (by simp [Text.ofString])
  rw [nameKeys, hdrop, htake]

theorem cuts_callable {m : Source.Mode} {t : Text} (h : Callable m t) {rest : Text} (hrest : NameEnds rest) :
    Cuts t (nameKeys t) rest := by
  cases h with
  | plain hn _ =>
    rw [nameKeys_plain hn]
    exact cuts_name hn hrest
  | @qualified q n hq hn _ =>
    rw [nameKeys_qualified n hq]
    have hname : NameEnds (Text.ofString "::" ++ n ++ rest) := nameEnds_cons isNamePart_colon _
    have hfirst := cuts_name hq hname
    have hcolons : Cuts (Text.ofString "::") [Symbol.doubleColon.key] (n ++ rest) :=
      cuts_double .doubleColon (by decide) _
    rw [List.append_assoc]
    exact hfirst.append (hcolons.append (cuts_name hn hrest))

/-! ## Texts of elements -/

/-- a text is cut wherever a name or a symbol would end -/
def CutsAlone (t : Text) (keys : List Key) : Prop := ∀ rest, Ends rest → Cuts t keys rest

theorem cuts_parens {t : Text} {keys : List Key} (h : CutsAlone t keys) (rest : Text) :
    Cuts ("(" ++ t ++ ")") (parenKeys keys) rest := by
  have hopen := cuts_firm .openParen (by decide) (t ++ Text.ofString ")" ++ rest)
  have hclose : Cuts (Text.ofString ")") [Symbol.closeParen.key] rest := cuts_firm .closeParen (by decide) rest
  rw [List.append_assoc]
  exact Cuts.append hopen ((h _ (ends_cons (by decide) _)).append hclose)

namespace Element

theorem cutsAlone_dressed (context : Nat) (e : Outline) {body : Text} {keys : List Key} (h : CutsAlone body keys) :
    CutsAlone (dressed context e body) (dressKeys context e keys) := by
  intro rest hrest
  unfold dressed dressKeys
  rw [List.append_assoc]
  have hcount : Cuts ((e.decoration.cardinality.map Cardinality.text).getD [])
      (e.decoration.cardinality.map Cardinality.key).toList rest := by
    cases e.decoration.cardinality with
    | none => exact .nil rest
    | some c =>
      cases c with
      | optional => exact cuts_single .question (by decide) hrest.2
      | any => exact cuts_firm .star (by decide) rest
      | atLeastOne => exact cuts_single .plus (by decide) hrest.2
  have hends : Ends ((e.decoration.cardinality.map Cardinality.text).getD [] ++ rest) := by
    cases e.decoration.cardinality with
    | none => exact hrest
    | some c => cases c <;> exact ends_cons (by decide) _
  refine Cuts.append ?_ (Cuts.append ?_ hcount)
  · cases e.decoration.predicate with
    | none => exact .nil _
    | some p =>
      cases p with
      | syntactic => exact cuts_double .fatArrow (by decide) _
      | firstToken => exact cuts_double .arrow (by decide) _
  · split
    · exact cuts_parens h _
    · exact h _ hends

/-- texts with separators are cut one by one; `E` is what every single one needs behind it -/
theorem cuts_intercalate {α : Type} {E : Text → Prop} {sep : Text} {sepKeys : List Key}
    (hsep : ∀ rest, Cuts sep sepKeys rest) (hends : ∀ rest, E (sep ++ rest)) {text : α → Text} {keys : α → List Key}
    {es : List α} (h : ∀ e ∈ es, ∀ rest, E rest → Cuts (text e) (keys e) rest) :
    ∀ rest, E rest → Cuts (List.intercalate sep (es.map text)) (List.intercalate sepKeys (es.map keys)) rest := by
  induction es with
  | nil => exact fun rest _ => .nil rest
  | cons e es ih =>
    intro rest hrest
    cases es with
    | nil => simpa using h e List.mem_cons_self rest hrest
    | cons u es =>
      have hmore := ih (fun x hx => h x (List.mem_cons_of_mem _ hx)) rest hrest
      have hfirst := h e List.mem_cons_self (sep ++ (List.intercalate sep ((u :: es).map text) ++ rest)) (hends _)
      have htext : List.intercalate sep ((e :: u :: es).map text) =
          text e ++ (sep ++ List.intercalate sep ((u :: es).map text)) := by simp [List.intercalate_cons_cons]
      have hkeys : List.intercalate sepKeys ((e :: u :: es).map keys) =
          keys e ++ (sepKeys ++ List.intercalate sepKeys ((u :: es).map keys)) := by simp [List.intercalate_cons_cons]
      rw [htext, hkeys]
      exact Cuts.append (by simpa using hfirst) ((hsep _).append hmore)

/-- what stands between members -/
theorem cuts_separator {g : Gathering} (hg : g ≠ .plain) (rest : Text) : Cuts g.separator g.keys rest := by
  have hgap := cuts_gap (c := CodePoint.ofChar ' ') (by decide)
  cases g with
  | choice => exact (hgap _).append (Cuts.append (cuts_firm .bar (by decide) _) (hgap rest))
  | anyOrder => exact (hgap _).append (Cuts.append (cuts_firm .ampersand (by decide) _) (hgap rest))
  | sequence => exact hgap rest
  | plain => exact absurd rfl hg

theorem ends_separator {g : Gathering} (hg : g ≠ .plain) (rest : Text) : Ends (g.separator ++ rest) := by
  cases g with
  | plain => exact absurd rfl hg
  | _ => exact ends_cons (by decide) _

theorem cutsAlone_compound {d : Decoration} {g : Gathering} (hg : g ≠ .plain) {es : List Outline}
    (h : ∀ e ∈ es, CutsAlone (e.body id) e.bodyKeys) :
    CutsAlone (body id (compound d g es)) (bodyKeys (compound d g es)) := by
  rw [body_compound, bodyKeys_compound]
  exact cuts_intercalate (cuts_separator hg) (ends_separator hg) fun e he => cutsAlone_dressed _ e (h e he)

/-! ## Definitions -/

theorem cutsAlone_reference {e : Outline} (h : Referable e) : CutsAlone (e.body id) e.bodyKeys := by
  intro rest hrest
  cases h with
  | keyword v => exact cuts_keyword v rest
  | call hn => exact cuts_callable hn hrest.1

/-- a cross reference -/
theorem cuts_crossReference {d : Decoration} {n : Text} {t : Option Outline} (hn : Callable .parser n)
    (ht : ∀ e ∈ t, Referable e) (rest : Text) :
    Cuts (body id (crossReference d n t)) (bodyKeys (crossReference d n t)) rest := by
  have hopen := fun more => cuts_firm .openBracket (by decide) more
  have hclose : Cuts (Text.ofString "]") [Symbol.closeBracket.key] rest := cuts_firm .closeBracket (by decide) rest
  rw [body, bodyKeys, List.append_assoc, List.append_assoc]
  refine Cuts.append (hopen _) (Cuts.append (cuts_callable hn ?_) (Cuts.append ?_ hclose))
  · cases t with
    | none => exact nameEnds_cons (by decide) _
    | some e => exact nameEnds_cons (by decide) _
  · cases t with
    | none => exact .nil _
    | some e =>
      have hbar := fun more => cuts_firm .bar (by decide) more
      exact Cuts.append (hbar _) (cutsAlone_dressed 4 e (cutsAlone_reference (ht e rfl)) _ (ends_cons (by decide) _))

theorem cutsAlone_assignable {e : Outline} (h : Assignable e) : CutsAlone (e.body id) e.bodyKeys := by
  induction h with
  | reference h => exact cutsAlone_reference h
  | crossReference hn ht => exact fun rest _ => cuts_crossReference hn ht rest
  | choice _ _ ih => exact cutsAlone_compound (by decide) ih

/-- an equals sign is not carried on by what may be assigned -/
theorem symbolEnds_assignable {e : Outline} (h : Assignable e) (rest : Text) :
    SymbolEnds (dressed 4 e (e.body id) ++ rest) := by
  have hplain : ∀ (c : Char) (more : Text), c ∉ [':', '.', '=', '>'] → SymbolEnds (CodePoint.ofChar c :: more) := by
    intro c more hc
    simp only [List.mem_cons, List.not_mem_nil, or_false, not_or] at hc
    simpa [SymbolEnds] using hc
  cases h with
  | reference h =>
    cases h with
    | keyword v => exact hplain '\'' _ (by decide)
    | call hn => simpa [dressed, decoration, Decoration.none, parenthesized, binding, isUpTo, body] using
        symbolEnds_callable hn rest
  | crossReference _ _ => exact hplain '[' _ (by decide)
  | choice _ _ => exact hplain '(' _ (by decide)

theorem cutsAlone_assignment {d : Decoration} {f o : Text} {e : Outline} (hf : IsIdentifier f)
    (ho : o = "=" ∨ o = "+=" ∨ o = "?=") (he : Assignable e) :
    CutsAlone (body id (assignment d f o e)) (bodyKeys (assignment d f o e)) := by
  intro rest hrest
  have hvalue := cutsAlone_dressed 4 e (cutsAlone_assignable he) rest hrest
  have hends := symbolEnds_assignable he rest
  rw [body, bodyKeys, List.append_assoc]
  rcases ho with rfl | rfl | rfl
  · exact Cuts.append (cuts_name hf (nameEnds_cons (by decide) _))
      (Cuts.append (cuts_single .equals (by decide) hends) hvalue)
  · exact Cuts.append (cuts_name hf (nameEnds_cons (by decide) _))
      (Cuts.append (cuts_double .plusEquals (by decide) _) hvalue)
  · exact Cuts.append (cuts_name hf (nameEnds_cons (by decide) _))
      (Cuts.append (cuts_double .questionEquals (by decide) _) hvalue)

theorem isIdentifier_current : IsIdentifier (Text.ofString "current") := .intro (by decide) (by decide)

theorem isIdentifier_endOfFile : IsIdentifier (Text.ofString "EOF") := .intro (by decide) (by decide)

theorem cuts_action {d : Decoration} {n : Text} {f o : Option Text} (hn : Callable .parser n) (hf : Feature f o)
    (rest : Text) : Cuts (body id (action d n f o)) (bodyKeys (action d n f o)) rest := by
  have hopen := fun more => cuts_firm .openBrace (by decide) more
  have hclose : Cuts (Text.ofString "\x7d") [Symbol.closeBrace.key] rest := cuts_firm .closeBrace (by decide) rest
  cases hf with
  | none =>
    rw [body, bodyKeys, List.append_assoc]
    exact Cuts.append (hopen _) (Cuts.append (cuts_callable hn (nameEnds_cons (by decide) _)) hclose)
  | @some f o hf ho =>
    have hcurrent : Cuts (Text.ofString "current") [(.name, "current")] (Text.ofString "\x7d" ++ rest) :=
      cuts_name isIdentifier_current (nameEnds_cons (by decide) _)
    have hlast := hcurrent.append hclose
    have hoperator : Cuts (o ++ (Text.ofString "current" ++ Text.ofString "\x7d"))
        (operatorKey o :: [(.name, Text.ofString "current"), Symbol.closeBrace.key]) rest := by
      have hends : SymbolEnds (Text.ofString "current" ++ Text.ofString "\x7d" ++ rest) := by
        rw [List.append_assoc]
        exact symbolEnds_identifier isIdentifier_current _
      rcases ho with rfl | rfl
      · exact Cuts.append (cuts_single .equals (by decide) hends) hlast
      · exact Cuts.append (cuts_double .plusEquals (by decide) _) hlast
    have hfeature : Cuts (f ++ (o ++ (Text.ofString "current" ++ Text.ofString "\x7d")))
        ((.name, f) :: operatorKey o :: [(.name, Text.ofString "current"), Symbol.closeBrace.key]) rest := by
      refine Cuts.append (cuts_name hf ?_) hoperator
      rcases ho with rfl | rfl <;> exact nameEnds_cons (by decide) _
    have hends : SymbolEnds (f ++ (o ++ (Text.ofString "current" ++ Text.ofString "\x7d")) ++ rest) := by
      rw [List.append_assoc]
      exact symbolEnds_identifier hf _
    have hdot := Cuts.append (cuts_single .dot (by decide) hends) hfeature
    have htext : body id (action d n (some f) (some o)) = Text.ofString "\x7b" ++ (n ++ (Text.ofString "." ++
        (f ++ (o ++ (Text.ofString "current" ++ Text.ofString "\x7d"))))) := by simp [body]
    rw [htext, bodyKeys]
    exact Cuts.append (hopen _) (Cuts.append (cuts_callable hn (nameEnds_cons (by decide) _)) hdot)

/-- the text of a definition is cut into its tokens -/
theorem cutsAlone_body {m : Source.Mode} {e : Outline} (h : Formed m e) : CutsAlone (e.body id) e.bodyKeys := by
  induction h with
  | keyword v _ => exact fun rest _ => cuts_keyword v rest
  | call _ hn => exact fun rest hrest => cuts_callable hn hrest.1
  | assignment _ hf ho he => exact cutsAlone_assignment hf ho he
  | action _ hn hf => exact fun rest _ => cuts_action hn hf rest
  | compound _ hg _ _ ih => exact cutsAlone_compound hg ih
  | wrapped _ _ _ ih => exact cutsAlone_compound (by decide) (by simpa using ih)
  | range l r _ _ =>
    intro rest _
    rw [body, bodyKeys, List.append_assoc]
    exact (cuts_keyword l _).append (Cuts.append (cuts_double .doubleDot (by decide) _) (cuts_keyword r rest))
  | wildcard _ _ => exact fun rest hrest => cuts_single .dot (by decide) hrest.2
  | endOfFile _ _ => exact fun rest hrest => cuts_name isIdentifier_endOfFile hrest.1
  | @negated _ e _ _ _ ih =>
    exact fun rest hrest => Cuts.append (cuts_firm .bang (by decide) _) (cutsAlone_dressed 4 e ih rest hrest)
  | @upTo _ e _ _ _ ih =>
    intro rest hrest
    have harrow := fun more => cuts_double .arrow (by decide) more
    have hgap := fun more => cuts_gap (c := CodePoint.ofChar ' ') (by decide) more
    exact Cuts.append ((harrow _).append (hgap _)) (cutsAlone_dressed 4 e ih rest hrest)

end Element

end Rulebook
