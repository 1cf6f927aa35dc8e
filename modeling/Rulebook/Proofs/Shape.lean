/-
The shapes of the definitions that are read. `Formed m e` says what no reading breaks: a compound has at least two
members, or it is a sequence of one member that could not take the decoration itself; what is assigned is undecorated;
names are identifiers, and a terminal rule has neither predicates nor the parts of a parser rule.

`formed_of_spells` is the main result. It holds with any names in the place of the calls, so it speaks of the tree as
written and of the linked one.
-/
import Rulebook.Proofs.Cutting
import Rulebook.Proofs.Recognition
import Rulebook.Proofs.Walk

namespace Rulebook

open Source

/-- a definition with the text of a name for every call -/
abbrev Outline := Element Text

/-! ## Shapes -/

/-- the text names what a call may mean: an identifier, or two of them with two colons between them. In a terminal rule
it does not begin with the word for the end of the text -/
inductive Callable (m : Mode) : Text → Prop where
  | plain {n : Text} : IsIdentifier n → (m = .terminal → n ≠ "EOF") → Callable m n
  | qualified {q n : Text} : IsIdentifier q → IsIdentifier n → (m = .terminal → q ≠ "EOF") →
    Callable m (q ++ "::" ++ n)

/-- a terminal rule has no predicates -/
def Allows (m : Mode) (d : Decoration) : Prop := m = .terminal → d.predicate = none

/-- the decoration of a sequence whose one member could not take it -/
def Wraps (d inner : Decoration) : Prop :=
  match d.predicate with
  | none => d.cardinality.isSome ∧ inner.cardinality.isSome
  | some _ => inner.isNone = false

/-- the feature of an action and its operator; it has both or neither -/
inductive Feature : Option Text → Option Text → Prop where
  | none : Feature none none
  | some {f o : Text} : IsIdentifier f → (o = "=" ∨ o = "+=") → Feature (some f) (some o)

/-- a keyword or a call with nothing around it -/
inductive Referable : Outline → Prop where
  | keyword (v : Text) : Referable (.keyword .none v)
  | call {n : Text} : Callable .parser n → Referable (.call .none n)

/-- what may be assigned -/
inductive Assignable : Outline → Prop where
  | reference {e : Outline} : Referable e → Assignable e
  | crossReference {n : Text} {t : Option Outline} :
    Callable .parser n → (∀ e ∈ t, Referable e) → Assignable (.crossReference .none n t)
  | choice {es : List Outline} : 2 ≤ es.length → (∀ e ∈ es, Assignable e) → Assignable (.compound .none .choice es)

/-- a definition as reading builds it -/
inductive Formed (m : Mode) : Outline → Prop where
  | keyword {d : Decoration} (v : Text) : Allows m d → Formed m (.keyword d v)
  | call {d : Decoration} {n : Text} : Allows m d → Callable m n → Formed m (.call d n)
  | assignment {d : Decoration} {f o : Text} {e : Outline} : m = .parser → IsIdentifier f →
    (o = "=" ∨ o = "+=" ∨ o = "?=") → Assignable e → Formed m (.assignment d f o e)
  | action {d : Decoration} {n : Text} {f o : Option Text} : m = .parser → Callable .parser n → Feature f o →
    Formed m (.action d n f o)
  | compound {d : Decoration} {g : Gathering} {es : List Outline} : Allows m d → g ≠ .plain → 2 ≤ es.length →
    (∀ e ∈ es, Formed m e) → Formed m (.compound d g es)
  | wrapped {d : Decoration} {e : Outline} : Allows m d → Wraps d e.decoration → Formed m e →
    Formed m (.compound d .sequence [e])
  | range {d : Decoration} (l r : Text) : m = .terminal → Allows m d → Formed m (.range d ⟨.none, l⟩ ⟨.none, r⟩)
  | wildcard {d : Decoration} : m = .terminal → Allows m d → Formed m (.wildcard d)
  | endOfFile {d : Decoration} : m = .terminal → Allows m d → Formed m (.endOfFile d)
  | negated {d : Decoration} {e : Outline} : m = .terminal → Allows m d → Formed m e → Formed m (.negated d e)
  | upTo {d : Decoration} {e : Outline} : m = .terminal → Allows m d → Formed m e → Formed m (.upTo d e)

theorem allows_none (m : Mode) : Allows m .none := fun _ => rfl

namespace Formed

variable {m : Mode} {e : Outline}

theorem allows (h : Formed m e) : Allows m e.decoration := by
  cases h with
  | assignment hm => exact fun hterminal => by cases hm.symm.trans hterminal
  | action hm => exact fun hterminal => by cases hm.symm.trans hterminal
  | _ => assumption

/-- an undecorated node takes any decoration -/
theorem decorated (h : Formed m e) (hnone : e.decoration.isNone = true) {d : Decoration} (hd : Allows m d) :
    Formed m (e.decorated d) := by
  cases h with
  | keyword v _ => exact .keyword v hd
  | call _ hn => exact .call hd hn
  | assignment hm hf ho he => exact .assignment hm hf ho he
  | action hm hn hf => exact .action hm hn hf
  | compound _ hg hlen hes => exact .compound hd hg hlen hes
  | wrapped _ hw _ =>
    simp only [Element.decoration, Decoration.isNone, Bool.and_eq_true, Option.isNone_iff_eq_none] at hnone
    rw [Wraps, hnone.2] at hw
    simp [hnone.1] at hw
  | range l r hm _ => exact .range l r hm hd
  | wildcard hm _ => exact .wildcard hm hd
  | endOfFile hm _ => exact .endOfFile hm hd
  | negated hm _ he => exact .negated hm hd he
  | upTo hm _ he => exact .upTo hm hd he

/-- a node without a cardinality takes one -/
theorem counted (h : Formed m e) (hnone : e.decoration.cardinality = none) (c : Cardinality) :
    Formed m (e.decorated ⟨some c, e.decoration.predicate⟩) := by
  have hallows : Allows m ⟨some c, e.decoration.predicate⟩ := h.allows
  cases h with
  | keyword v _ => exact .keyword v hallows
  | call _ hn => exact .call hallows hn
  | assignment hm hf ho he => exact .assignment hm hf ho he
  | action hm hn hf => exact .action hm hn hf
  | compound _ hg hlen hes => exact .compound hallows hg hlen hes
  | @wrapped d e _ hw he =>
    refine .wrapped hallows ?_ he
    simp only [Element.decoration] at hnone
    unfold Wraps at hw ⊢
    split at hw
    · simp [hnone] at hw
    · next hp => simpa [Element.decoration, hp] using hw
  | range l r hm _ => exact .range l r hm hallows
  | wildcard hm _ => exact .wildcard hm hallows
  | endOfFile hm _ => exact .endOfFile hm hallows
  | negated hm _ he => exact .negated hm hallows he
  | upTo hm _ he => exact .upTo hm hallows he

end Formed

/-! ## Reading builds these shapes -/

variable {m : Mode} {f : WrittenCall → Text}

theorem formed_withPredicate {e : Tree} (p : Predicate) (hm : m = .parser) (h : Formed m (e.map f)) :
    Formed m ((withPredicate p e).map f) := by
  have hallows : Allows m ⟨none, some p⟩ := fun hterminal => by cases hm.symm.trans hterminal
  unfold withPredicate
  split
  · next hnone =>
    rw [Element.map_decorated]
    exact h.decorated (by rw [Element.decoration_map]; exact hnone) hallows
  · next hsome =>
    refine .wrapped hallows ?_ h
    simpa [Wraps, Element.decoration_map] using hsome

theorem formed_withCardinality {e : Tree} (c : Cardinality) (h : Formed m (e.map f)) :
    Formed m ((withCardinality c e).map f) := by
  unfold withCardinality
  split
  · next c' hc =>
    exact .wrapped (fun _ => rfl) (by simp [Wraps, Element.decoration_map, hc]) h
  · next hnone =>
    rw [Element.map_decorated, ← Element.decoration_map f]
    exact h.counted (by rw [Element.decoration_map]; exact hnone) c

theorem formed_dress {e : Tree} {p : Option Predicate} (c : Option Cardinality) (hp : m = .terminal → p = none)
    (h : Formed m (e.map f)) : Formed m ((dress p c e).map f) := by
  have hinner : Formed m ((p.elim e fun p => withPredicate p e).map f) := by
    cases p with
    | none => exact h
    | some p =>
      cases m with
      | parser => exact formed_withPredicate p rfl h
      | terminal => exact absurd (hp rfl) (by simp)
  cases c with
  | none => exact hinner
  | some c => exact formed_withCardinality c hinner

theorem formed_gather {g : Gathering} {first : Tree} {more : List Tree} (hg : g ≠ .plain)
    (h : ∀ e ∈ first :: more, Formed m (e.map f)) : Formed m ((gather g first more).map f) := by
  cases more with
  | nil => exact h first List.mem_cons_self
  | cons second more =>
    refine .compound (allows_none m) hg (by simp [Element.mapList]) ?_
    rw [Element.mapList_eq_map]
    intro e he
    obtain ⟨t, ht, rfl⟩ := List.mem_map.1 he
    exact h t ht

theorem assignable_gather {first : Tree} {more : List Tree} (h : ∀ e ∈ first :: more, Assignable (e.map f)) :
    Assignable ((gather .choice first more).map f) := by
  cases more with
  | nil => exact h first List.mem_cons_self
  | cons second more =>
    refine .choice (by simp [Element.mapList]) ?_
    rw [Element.mapList_eq_map]
    intro e he
    obtain ⟨t, ht, rfl⟩ := List.mem_map.1 he
    exact h t ht

/-! ## Names -/

/-- a call as it stands in a text: its names are identifiers, and in a terminal rule the first is not `EOF` -/
structure Source.WrittenCall.Valid (m : Mode) (c : WrittenCall) : Prop where
  name : IsIdentifier c.name
  qualifier : ∀ q ∈ c.qualifier, IsIdentifier q
  first : m = .terminal → c.qualifier.getD c.name ≠ "EOF"

theorem Source.WrittenCall.Valid.callable {c : WrittenCall} (h : c.Valid m) : Callable m c.written := by
  obtain ⟨hname, hqualifier, hfirst⟩ := h
  obtain ⟨q, n, line, column⟩ := c
  cases q with
  | none => exact .plain hname hfirst
  | some q => exact .qualified (hqualifier q rfl) hname hfirst

/-- the words are as a text is cut into -/
def LexicalWords (ws : List Word) : Prop := ∀ w ∈ ws, Lexical w.key

theorem lexicalWords_of_ofSource {file : Path} {source : Text} {lexed : Lexed}
    (h : Lexed.ofSource file source = .ok lexed) : LexicalWords (wordsOf lexed.tokens) :=
  fun _ hw => Lexed.lexical_of_ofSource h _ (mem_of_mem_wordsBehind hw)

theorem valid_callOf {ws : List Word} {v : Token × Option Token} (hlex : LexicalWords ws) (h : Named ws v)
    (heof : m = .terminal → v.1.value ≠ "EOF") : (callOf v).Valid m := by
  cases h with
  | plain hn => exact ⟨(hlex _ (by simp)).name hn, nofun, heof⟩
  | qualified hq _ hn =>
    refine ⟨(hlex _ (by simp)).name hn, ?_, heof⟩
    intro _ hread
    cases hread
    exact (hlex _ (by simp)).name hq

theorem callable_writtenName {ws : List Word} {v : Token × Option Token} (hlex : LexicalWords ws) (h : Named ws v) :
    Callable .parser (writtenName v) := by
  have hcallable := (valid_callOf (m := .parser) hlex h nofun).callable
  obtain ⟨first, second⟩ := v
  cases second <;> exact hcallable

theorem formed_of_leaf {ws : List Word} {t : Tree} (hf : ∀ c : WrittenCall, c.Valid m → Callable m (f c))
    (hlex : LexicalWords ws) (h : Leaf m ws t) : Formed m (t.map f) := by
  cases h with
  | keyword _ => exact .keyword _ (allows_none m)
  | call h =>
    obtain ⟨hv, heof⟩ := h
    exact .call (allows_none m) (hf _ (valid_callOf hlex hv heof))

theorem reference_of_leaf {ws : List Word} {t : Tree} (hf : ∀ c : WrittenCall, c.Valid .parser → Callable .parser (f c))
    (hlex : LexicalWords ws) (h : Leaf .parser ws t) : Referable (t.map f) := by
  cases h with
  | keyword _ => exact .keyword _
  | call h =>
    obtain ⟨hv, heof⟩ := h
    exact .call (hf _ (valid_callOf hlex hv heof))

theorem assignable_of_referenced {ws : List Word} {t : Tree}
    (hf : ∀ c : WrittenCall, c.Valid .parser → Callable .parser (f c)) (hlex : LexicalWords ws) (h : Referenced ws t) :
    Assignable (t.map f) := by
  obtain ⟨-, hv, hu, -⟩ := h
  refine .crossReference (callable_writtenName (fun w hw => hlex w (by simp [hw])) hv) ?_
  rw [Element.mapOption_eq_map]
  intro e he
  cases hu with
  | nothing => cases he
  | terminal _ hl =>
    cases he
    exact reference_of_leaf hf (fun w hw => hlex w (by simp [hw])) hl

theorem formed_of_acts {ws : List Word} {t : Tree} (hm : m = .parser) (hlex : LexicalWords ws) (h : Acts ws t) :
    Formed m (t.map f) := by
  obtain ⟨-, hv, hu, -⟩ := h
  refine .action hm (callable_writtenName (fun w hw => hlex w (by simp [hw])) hv) ?_
  cases hu with
  | nothing => exact .none
  | feature _ hfeature ho _ =>
    refine .some ((hlex _ (by simp)).name hfeature) ?_
    rcases ho with ho | ho
    · exact .inl ((hlex _ (by simp)).symbol _ ho)
    · exact .inr ((hlex _ (by simp)).symbol _ ho)

def Shaped (m : Mode) (f : WrittenCall → Text) : Part → Tree → Prop
  | .row _ p, t => Shaped m f p t
  | .member, t => m = .parser → Assignable (t.map f)
  | .assignable, t => m = .parser → Assignable (t.map f)
  | .operand, t => m = .terminal → Formed m (t.map f)
  | _, t => Formed m (t.map f)

theorem shaped_of_spells (hf : ∀ c : WrittenCall, c.Valid m → Callable m (f c)) {p : Part} {ws : List Word}
    {ts : List Tree} (h : Spells m p ws ts) (hlex : LexicalWords ws) : ∀ t ∈ ts, Shaped m f p t := by
  have hparser : m = .parser → ∀ c : WrittenCall, c.Valid .parser → Callable .parser (f c) := fun hm => hm ▸ hf
  have hsub : ∀ {us ws : List Word}, LexicalWords ws → us ⊆ ws → LexicalWords us := fun h hsub w hw => h w (hsub hw)
  induction h with
  | rowOne _ ih => exact ih hlex
  | rowMore _ _ _ ih ihrow =>
    have hfirst := List.forall_mem_singleton.1 (ih (hsub hlex (by simp)))
    exact List.forall_mem_cons.2 ⟨hfirst, ihrow (hsub hlex (by simp))⟩
  | alternatives _ ih => exact List.forall_mem_singleton.2 (formed_gather (by decide) (ih hlex))
  | unordered _ ih => exact List.forall_mem_singleton.2 (formed_gather (by decide) (ih hlex))
  | sequence _ ih => exact List.forall_mem_singleton.2 (formed_gather (by decide) (ih hlex))
  | elementsOne _ ih => exact ih hlex
  | elementsMore _ _ ih ihtail =>
    have hfirst := List.forall_mem_singleton.1 (ih (hsub hlex (by simp)))
    exact List.forall_mem_cons.2 ⟨hfirst, ihtail (hsub hlex (by simp))⟩
  | action hm h => exact List.forall_mem_singleton.2 (formed_of_acts hm hlex h)
  | element _ hmode _ _ ih =>
    have hinner := List.forall_mem_singleton.1 (ih (hsub hlex (by simp)))
    exact List.forall_mem_singleton.2 (formed_dress _ hmode hinner)
  | @assignment n o ws t hm hname ho _ ih =>
    have hvalue := List.forall_mem_singleton.1 (ih (hsub hlex (by simp))) hm
    have hlexo : Lexical o.key := hlex o (by simp)
    have hoperator : o.token.value = "=" ∨ o.token.value = "+=" ∨ o.token.value = "?=" := by
      simp only [isAssignment, Bool.or_eq_true, or_assoc, Token.isSymbol_iff] at ho
      rcases ho with ho | ho | ho
      · exact .inl (hlexo.symbol _ ho)
      · exact .inr (.inl (hlexo.symbol _ ho))
      · exact .inr (.inr (hlexo.symbol _ ho))
    exact List.forall_mem_singleton.2 (.assignment hm ((hlex n (by simp)).name hname) hoperator hvalue)
  | plainAtom _ _ ih => exact ih hlex
  | upTo hm _ _ ih =>
    have hinner := List.forall_mem_singleton.1 (ih (hsub hlex (by simp))) hm
    exact List.forall_mem_singleton.2 (.upTo hm (allows_none m) hinner)
  | plainOperand hm _ ih => exact fun t ht => ih hlex t ht hm
  | wildcard _ => exact List.forall_mem_singleton.2 fun hm => .wildcard hm (allows_none m)
  | endOfFile _ => exact List.forall_mem_singleton.2 fun hm => .endOfFile hm (allows_none m)
  | range _ _ _ => exact List.forall_mem_singleton.2 fun hm => .range _ _ hm (allows_none m)
  | negated _ _ ih =>
    have hinner := List.forall_mem_singleton.1 (ih (hsub hlex (by simp)))
    exact List.forall_mem_singleton.2 fun hm => .negated hm (allows_none m) (hinner hm)
  | operandAtom _ ih => exact fun t ht _ => ih hlex t ht
  | leaf h => exact List.forall_mem_singleton.2 (formed_of_leaf hf hlex h)
  | group _ _ _ ih => exact ih (hsub hlex (by simp))
  | crossReference h =>
    exact List.forall_mem_singleton.2 fun hm => assignable_of_referenced (hparser hm) hlex h
  | memberAssignable _ ih => exact ih hlex
  | assignableLeaf h =>
    exact List.forall_mem_singleton.2 fun hm => .reference (reference_of_leaf (hparser hm) hlex h)
  | assignableGroup _ _ _ ih =>
    refine List.forall_mem_singleton.2 fun hm => assignable_gather fun t ht => ?_
    exact ih (hsub hlex (by simp)) t ht hm

/-- what reading builds is formed -/
theorem formed_of_spells (hf : ∀ c : WrittenCall, c.Valid m → Callable m (f c)) {ws : List Word} {t : Tree}
    (h : Spells m .alternatives ws [t]) (hlex : LexicalWords ws) : Formed m (t.map f) :=
  shaped_of_spells hf h hlex t List.mem_cons_self

/-! ## Names that are called -/

section

open Element

variable {e : Outline}

theorem callable_of_referable (h : Referable e) : ∀ n ∈ e.calls, Callable .parser n := by
  cases h with
  | keyword v => exact (forall_calls_iff _).2 ⟨nofun, nofun⟩
  | call hn => exact (forall_calls_iff _).2 ⟨fun n hmem => Option.some.inj hmem ▸ hn, nofun⟩

theorem callable_of_assignable (h : Assignable e) : ∀ n ∈ e.calls, Callable .parser n := by
  induction h with
  | reference h => exact callable_of_referable h
  | crossReference _ ht =>
    exact (forall_calls_iff _).2 ⟨by simp [target?], fun c hc => callable_of_referable (ht c (by simpa [children] using hc))⟩
  | choice _ _ ih => exact (forall_calls_iff _).2 ⟨by simp [target?], ih⟩

/-- a formed definition calls what may be called -/
theorem callable_of_formed {m : Mode} (h : Formed m e) : ∀ n ∈ e.calls, Callable m n := by
  induction h with
  | call _ hn => exact (forall_calls_iff _).2 ⟨fun n hmem => Option.some.inj hmem ▸ hn, nofun⟩
  | assignment hm _ _ he =>
    subst hm
    exact (forall_calls_iff _).2 ⟨nofun, List.forall_mem_singleton.2 (callable_of_assignable he)⟩
  | compound _ _ _ _ ih => exact (forall_calls_iff _).2 ⟨nofun, ih⟩
  | wrapped _ _ _ ih => exact (forall_calls_iff _).2 ⟨nofun, List.forall_mem_singleton.2 ih⟩
  | range l r _ _ =>
    have hkeyword : ∀ (p : KeywordPart), ∀ n ∈ (ofPart p : Outline).calls, Callable m n := fun p =>
      (forall_calls_iff _).2 ⟨nofun, nofun⟩
    exact (forall_calls_iff _).2 ⟨nofun, List.forall_mem_cons.2 ⟨hkeyword _, List.forall_mem_singleton.2 (hkeyword _)⟩⟩
  | negated _ _ _ ih => exact (forall_calls_iff _).2 ⟨nofun, List.forall_mem_singleton.2 ih⟩
  | upTo _ _ _ ih => exact (forall_calls_iff _).2 ⟨nofun, List.forall_mem_singleton.2 ih⟩
  | _ => exact (forall_calls_iff _).2 ⟨nofun, nofun⟩

open Classical in
/-- the calls of a text are valid; a function that names the others by nothing shows it -/
theorem valid_of_spells {m : Mode} {ws : List Word} {t : Tree} (h : Spells m .alternatives ws [t])
    (hlex : LexicalWords ws) : ∀ c ∈ t.calls, c.Valid m := by
  let f : WrittenCall → Text := fun c => if c.Valid m then c.written else []
  have hformed : Formed m (t.map f) := formed_of_spells (fun c hc => by simpa [f, hc] using hc.callable) h hlex
  intro c hc
  have hcallable := callable_of_formed hformed (f c) (by rw [calls_map]; exact List.mem_map_of_mem hc)
  by_contra hinvalid
  have hnothing : f c = [] := if_neg hinvalid
  rw [hnothing] at hcallable
  generalize hname : ([] : Text) = n at hcallable
  cases hcallable with
  | plain hn _ =>
    subst hname
    cases hn
  | qualified hq _ _ => simp [Text.ofString] at hname

end

end Rulebook
