/-
Progress. A parser stands at a word, or behind the last one at the token for the end (`Position`), and sees the words
that are left from there. A call that returns has gone on from its position, by a word at least when it takes something,
and neither back nor past the end; a call that complains does so at a position it has gone on to (`Goes`).

`Stays` says that a reading leaves an end of its words and complains at one. An end of the words is what is left at one
position (`exists_left`), so that every reader goes on (`Reader.goes`), wherever it is called.

- `parser_makes_progress`: every call goes on, and a whole grammar comes to an end: it is read, or there is an error at
  one of its tokens or at the one for the end.
-/
import Rulebook.Proofs.Complaints
import Rulebook.Proofs.Uncommented

namespace Rulebook

/-- the error is about a token, and its place is where the token stands -/
structure SyntaxError.IsAbout (e : SyntaxError) (t : Token) : Prop where
  cause : ∃ complaint, e.cause = .misplaced complaint t
  line : e.place.line = t.line
  column : e.place.column = t.column
  length : e.place.length = t.length

namespace Source

open Rulebook.Reading

variable {α : Type} {takes : Bool} {words : List Word}

/-! ## Positions -/

/-- a position among some words: at one of them, or at the end behind the last one -/
abbrev Position (words : List Word) := Fin (words.length + 1)

namespace Position

def left (p : Position words) : List Word := words.drop p.val

theorem length_left (p : Position words) : p.left.length = words.length - p.val := List.length_drop

/-- an end of what is left is what is left at one position further on -/
theorem exists_left {p : Position words} {rest : List Word} (h : rest <:+ p.left) :
    ∃ q : Position words, q.left = rest ∧ p ≤ q ∧ (rest.length < p.left.length → p < q) := by
  have hends : rest <:+ words := h.trans (List.drop_suffix _ _)
  have hlength : rest.length ≤ words.length - p.val := p.length_left ▸ h.length_le
  refine ⟨⟨words.length - rest.length, by omega⟩, (List.suffix_iff_eq_drop.1 hends).symm, ?_, ?_⟩
  · have hp := p.isLt
    exact Fin.le_def.2 (by simp only; omega)
  · intro hshorter
    rw [length_left] at hshorter
    exact Fin.lt_def.2 (by simp only; omega)

/-- among all tokens, the one for the end behind the others, the first that is left stands at the position -/
theorem getElem?_left (p : Position words) (stop : Token) :
    (words.map Word.token ++ [stop])[p.val]? = some ((p.left.head?.map Word.token).getD stop) := by
  rcases Nat.lt_or_ge p.val words.length with hlt | hge
  · have hin : p.val < (words.map Word.token).length := by rwa [List.length_map]
    rw [List.getElem?_append_left hin, List.getElem?_map, left, List.head?_drop, List.getElem?_eq_getElem hlt]
    rfl
  · have hend : p.val = (words.map Word.token).length := by
      have hp := p.isLt
      rw [List.length_map]
      omega
    rw [List.getElem?_append_right hend.ge, left, List.drop_eq_nil_of_le hge, hend, Nat.sub_self]
    rfl

end Position

/-! ## Calls -/

/-- the fault is about the token at a position, whichever token stands for the end -/
def Fault.StandsAt (p : Position words) (e : Fault) : Prop :=
  ∀ stop, (words.map Word.token ++ [stop])[p.val]? = some (e.found.getD stop)

/-- a call from a position: where it returns, it has gone on to the position of what it leaves, by a word at least when
it takes something; where it complains, it has gone on to the token it complains about -/
structure Goes (p : Position words) (r : Reading α takes p.left) : Prop where
  returns : ∀ a rest, r.Gives a rest → ∃ q : Position words, q.left = rest ∧ p ≤ q ∧ (takes = true → p < q)
  complains : ∀ e, r = .error e → ∃ q : Position words, p ≤ q ∧ e.StandsAt q

theorem Fault.StandsIn.exists_position {p : Position words} {e : Fault} (h : e.StandsIn p.left) :
    ∃ q : Position words, p ≤ q ∧ e.StandsAt q := by
  obtain ⟨here, hhere, hfound⟩ := h
  obtain ⟨q, rfl, hle, -⟩ := Position.exists_left hhere
  refine ⟨q, hle, ?_⟩
  intro stop
  rw [hfound, q.getElem?_left]

theorem goes_of_stays {p : Position words} {r : Reading α takes p.left} (h : Stays p.left r) : Goes p r where
  returns := by
    intro a rest hread
    obtain ⟨q, hq, hle, hlt⟩ := Position.exists_left (h.rest a rest hread)
    refine ⟨q, hq, hle, ?_⟩
    intro htakes
    subst htakes
    exact hlt hread.shorter
  complains e he := (h.fault e he).exists_position

/-- the readers of a grammar and of its parts; each has the type of what it gives, and whether it takes something -/
inductive Reader : Type → Bool → Type where
  | take (kind : TokenKind) (what : Text) : Reader Token true
  | takeWord (word : Text) : Reader Token true
  | typeRef : Reader Text true
  | ruleName : Reader Text true
  | qualifiedName : Reader Text true
  | header : Reader Text true
  | usesHere : Reader (List Text) false
  | hiddenClause : Reader (List Text) true
  | hiddenHere : Reader (List Text) false
  | shortNameHere : Reader (Option Text) false
  | generated : Reader Metamodel true
  | imported : Reader Metamodel true
  | metamodels : Reader (List Metamodel) false
  | annotations (comment : Option Text) : Reader (Option Text) false
  | rules : Reader (List WrittenRule) false
  | rule : Reader WrittenRule true
  | parserRule : Reader WrittenRule true
  | terminalRule : Reader WrittenRule true
  | enumRule : Reader WrittenRule true
  | enumLiteral : Reader Tree true
  | enumLiterals : Reader Tree true
  | returnsHere : Reader (Option Text) false
  | alternatives (m : Mode) : Reader Tree true
  | unorderedGroup (m : Mode) : Reader Tree true
  | sequence (m : Mode) : Reader Tree true
  | moreElements (m : Mode) : Reader (List Tree) false
  | element (m : Mode) : Reader Tree true
  | plainElement : Reader Tree true
  | atom (m : Mode) : Reader Tree true
  | call : Reader Tree true
  | assigned (operator : Text) : Reader Tree true
  | assignable : Reader Tree true
  | assignableMember : Reader Tree true
  | crossReference : Reader Tree true
  | action : Reader Tree true
  | terminalElement : Reader Tree true
  | terminalOperand : Reader Tree true

namespace Reader

def read : Reader α takes → (s : List Word) → Reading α takes s
  | .take kind what => Source.take kind what
  | .takeWord word => Source.takeWord word
  | .typeRef => Source.typeRef
  | .ruleName => Source.ruleName
  | .qualifiedName => Source.qualifiedName
  | .header => WrittenGrammar.header
  | .usesHere => Source.usesHere
  | .hiddenClause => Source.hiddenClause
  | .hiddenHere => Source.hiddenHere
  | .shortNameHere => Source.shortNameHere
  | .generated => Source.generated
  | .imported => Source.imported
  | .metamodels => Source.metamodels
  | .annotations comment => Source.annotations comment
  | .rules => Source.rules
  | .rule => Source.rule
  | .parserRule => Source.parserRule
  | .terminalRule => Source.terminalRule
  | .enumRule => Source.enumRule
  | .enumLiteral => Source.enumLiteral
  | .enumLiterals => Source.enumLiterals
  | .returnsHere => Source.returnsHere
  | .alternatives m => Source.alternatives m
  | .unorderedGroup m => Source.unorderedGroup m
  | .sequence m => Source.sequence m
  | .moreElements m => Source.moreElements m
  | .element m => Source.element m
  | .plainElement => Source.plainElement
  | .atom m => Source.atom m
  | .call => Source.call
  | .assigned operator => Source.assigned operator
  | .assignable => Source.assignable
  | .assignableMember => Source.assignableMember
  | .crossReference => Source.crossReference
  | .action => Source.action
  | .terminalElement => Source.terminalElement
  | .terminalOperand => Source.terminalOperand

theorem stays (r : Reader α takes) (s : List Word) : Stays s (r.read s) := by
  have h := List.suffix_refl s
  cases r with
  | take kind what => exact stays_take h kind what
  | takeWord word => exact stays_takeWord h word
  | typeRef => exact stays_typeRef h
  | ruleName => exact stays_ruleName h
  | qualifiedName => exact stays_qualifiedName h
  | header => exact stays_header h
  | usesHere => exact stays_usesHere h
  | hiddenClause => exact stays_hiddenClause h
  | hiddenHere => exact stays_hiddenHere h
  | shortNameHere => exact stays_shortNameHere h
  | generated => exact stays_generated h
  | imported => exact stays_imported h
  | metamodels => exact stays_metamodels h
  | annotations comment => exact stays_annotations h comment
  | rules => exact stays_rules h
  | rule => exact stays_rule h
  | parserRule => exact stays_parserRule h
  | terminalRule => exact stays_terminalRule h
  | enumRule => exact stays_enumRule h
  | enumLiteral => exact stays_enumLiteral h
  | enumLiterals => exact stays_enumLiterals h
  | returnsHere => exact stays_returnsHere h
  | alternatives m => exact stays_alternatives m s h
  | unorderedGroup m => exact stays_unorderedGroup m s h
  | sequence m => exact stays_sequence m s h
  | moreElements m => exact stays_moreElements m s h
  | element m => exact stays_element m s h
  | plainElement => exact stays_plainElement s h
  | atom m => exact stays_atom m s h
  | call => exact stays_call h
  | assigned operator => exact stays_assigned h operator
  | assignable => exact stays_assignable s h
  | assignableMember => exact stays_assignableMember s h
  | crossReference => exact stays_crossReference h
  | action => exact stays_action h
  | terminalElement => exact stays_terminalElement s h
  | terminalOperand => exact stays_terminalOperand s h

/-- every call of a reader goes on from where it is called -/
theorem goes (r : Reader α takes) (p : Position words) : Goes p (r.read p.left) := goes_of_stays (r.stays p.left)

end Reader

/-! ## Whole grammars -/

theorem isAbout_errorOf (file : Path) (source : Text) (lexed : Lexed) (fault : Fault) :
    (WrittenGrammar.errorOf file source lexed fault).IsAbout (fault.found.getD lexed.stopToken) :=
  ⟨⟨fault.complaint, rfl⟩, rfl, rfl, rfl⟩

/-- **A parser always makes progress**: among any tokens, with one for the end behind them, every call of a reader goes
on from the position where it is called. When it returns, it has reached a further position, by one token at least when
it takes something, as the readers of elements, groups, alternatives, rules and metamodels do; it has neither gone back
nor past the token for the end. When it complains, it does so about the token at a position it has gone on to. So a
whole grammar comes to an end: it is read, or there is an error that is about one of the tokens, the one for the end
among them, and names the place where that token stands. -/
theorem parser_makes_progress (tokens : List Token) :
    (∀ {α : Type} {takes : Bool} (r : Reader α takes) (p : Position (wordsOf tokens)), Goes p (r.read p.left)) ∧
    ((∃ g, WrittenGrammar.ofWords (wordsOf tokens) = .ok g) ∨
      ∃ fault, ∃ p : Position (wordsOf tokens), WrittenGrammar.ofWords (wordsOf tokens) = .error fault ∧
        (∀ stop, (uncommented tokens ++ [stop])[p.val]? = some (fault.found.getD stop)) ∧
        ∀ file source mark, (WrittenGrammar.errorOf file source ⟨tokens, mark⟩ fault).IsAbout
          (fault.found.getD (Lexed.stopToken ⟨tokens, mark⟩))) := by
  refine ⟨fun r p => r.goes p, ?_⟩
  cases h : WrittenGrammar.ofWords (wordsOf tokens) with
  | ok g => exact .inl ⟨g, rfl⟩
  | error fault =>
    obtain ⟨p, -, hp⟩ := Fault.StandsIn.exists_position (p := (0 : Position (wordsOf tokens))) (fault_stands h)
    have htokens : (wordsOf tokens).map Word.token = uncommented tokens := tokens_wordsBehind none tokens
    refine .inr ⟨fault, p, rfl, ?_, ?_⟩
    · intro stop
      rw [← htokens]
      exact hp stop
    · intro file source mark
      exact isAbout_errorOf file source ⟨tokens, mark⟩ fault

end Source

end Rulebook
