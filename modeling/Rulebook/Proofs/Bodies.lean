/-
Calls as they stand in a text. The body of a rule stands between a colon and a semicolon (`bodies`), and its calls can
be told from its words alone, from left to right (`callsAmong`): a name is a call unless it is a feature with its
operator, stands in an action, names a type, or means the end of the text.

`calls_of_bodies`: the trees that are read have the same calls in the same order, none lost and none counted twice. The
scan follows the language of definitions; what it does with the words of a part does not depend on what follows, as long
as that does not carry the part on (`Scanned`, one case for each way of spelling a part).
-/
import Rulebook.Proofs.Headers
import Rulebook.Proofs.Linking

namespace Rulebook

open Source Rulebook.Reading Element

/-! ## Scanning words -/

namespace Source

/-- what the next word can be: a call, the second part of a qualified name, or part of an action or a type, up to one of
some symbols -/
inductive Stand where
  | free
  | secondPart
  | inside (closers : List Symbol)

/-- the second part of a qualified name, if two colons stand here -/
def secondPart? : List Word → Option Token
  | c :: n :: _ => if c.token.isSymbol .doubleColon then some n.token else none
  | _ => none

/-- a name that is a feature or means the end of the text -/
def isNoCall (m : Mode) (w : Word) (ws : List Word) : Bool :=
  (m = .terminal && w.token.value = "EOF") || ws.head?.any fun o => isAssignment o.token

def callsAmong (m : Mode) : Stand → List Word → List WrittenCall
  | _, [] => []
  | .secondPart, _ :: ws => callsAmong m .free ws
  | .inside closers, w :: ws => callsAmong m (if closers.any w.token.isSymbol then .free else .inside closers) ws
  | .free, w :: ws =>
    if w.token.kind = .name then
      if isNoCall m w ws then callsAmong m .free ws else callOf (w.token, secondPart? ws) :: callsAmong m .free ws
    else if w.token.isSymbol .doubleColon then callsAmong m .secondPart ws
    else if w.token.isSymbol .openBrace then callsAmong m (.inside [.closeBrace]) ws
    else if w.token.isSymbol .openBracket then callsAmong m (.inside [.bar, .closeBracket]) ws
    else callsAmong m .free ws

/-- what stands between a colon and the next semicolon; `inside` are the words behind a colon so far -/
def bodiesFrom (inside : Option (List Word)) : List Word → List (List Word)
  | [] => []
  | w :: ws =>
    match inside with
    | none => bodiesFrom (if w.token.isSymbol .colon then some [] else none) ws
    | some body => if w.token.isSymbol .semicolon then body :: bodiesFrom none ws else bodiesFrom (some (body ++ [w])) ws

/-- the bodies of rules among some words -/
def bodies (words : List Word) : List (List Word) := bodiesFrom none words

end Source

/-- the calls in the body of a rule; an enumeration has none -/
def RuleKind.callsIn : RuleKind → List Word → List WrittenCall
  | .parser _ _, body => callsAmong .parser .free body
  | .terminal _, body => callsAmong .terminal .free body
  | _, _ => []

namespace Source

variable {m : Mode}

/-- words up to a symbol say nothing -/
theorem callsAmong_inside {closers : List Symbol} {front rest : List Word} {c : Word} {s : Symbol}
    (hfront : ∀ w ∈ front, ∀ s ∈ closers, ¬ w.Is s) (hc : c.Is s) (hs : s ∈ closers) :
    callsAmong m (.inside closers) (front ++ c :: rest) = callsAmong m .free rest := by
  induction front with
  | nil =>
    have hstop : closers.any c.token.isSymbol = true := List.any_eq_true.2 ⟨s, hs, (Token.isSymbol_iff ..).2 hc⟩
    rw [List.nil_append, callsAmong, if_pos hstop]
  | cons w front ih =>
    have hgo : ¬ closers.any w.token.isSymbol = true := by
      simp only [List.any_eq_true, Token.isSymbol_iff, not_exists, not_and]
      exact hfront w List.mem_cons_self
    rw [List.cons_append, callsAmong, if_neg hgo]
    exact ih fun x hx => hfront x (List.mem_cons_of_mem _ hx)

theorem callsAmong_brace {o : Word} (ho : o.Is .openBrace) (ws : List Word) :
    callsAmong m .free (o :: ws) = callsAmong m (.inside [.closeBrace]) ws := by
  simp [callsAmong, Token.isSymbol, ho.kind]

theorem callsAmong_bracket {o : Word} (ho : o.Is .openBracket) (ws : List Word) :
    callsAmong m .free (o :: ws) = callsAmong m (.inside [.bar, .closeBracket]) ws := by
  simp [callsAmong, Token.isSymbol, ho.kind]

theorem callsAmong_literal {w : Word} (hw : w.IsLiteral) (ws : List Word) :
    callsAmong m .free (w :: ws) = callsAmong m .free ws := by
  simp [callsAmong, Token.isSymbol, hw.kind]

/-- the symbols that say nothing about calls -/
def Silent (s : Symbol) : Prop := s ∉ [Symbol.doubleColon, .openBrace, .openBracket, .colon, .semicolon]

instance (s : Symbol) : Decidable (Silent s) :=
  inferInstanceAs (Decidable (s ∉ [Symbol.doubleColon, .openBrace, .openBracket, .colon, .semicolon]))

theorem Silent.ordinary {w : Word} {s : Symbol} (hs : Silent s) (hw : w.Is s) : w.Ordinary :=
  hw.ordinary fun h => hs (by simp only [List.mem_cons, List.not_mem_nil, or_false] at h ⊢; tauto)

theorem callsAmong_silent {w : Word} {s : Symbol} (hw : w.Is s) (hs : Silent s) (ws : List Word) :
    callsAmong m .free (w :: ws) = callsAmong m .free ws := by
  simp only [Silent, List.mem_cons, List.not_mem_nil, or_false, not_or] at hs
  simp [callsAmong, Token.isSymbol, hw.kind, hs]

theorem callsAmong_endOfFile {w : Word} (hw : w.IsName) (hvalue : w.token.value = "EOF") (ws : List Word) :
    callsAmong .terminal .free (w :: ws) = callsAmong .terminal .free ws := by
  have hno : isNoCall .terminal w ws = true := by simp [isNoCall, hvalue]
  rw [callsAmong, if_pos hw.kind, if_pos hno]

theorem silent_of_assignment {o : Word} (ho : isAssignment o.token = true) : ∃ s, o.Is s ∧ Silent s := by
  simp only [isAssignment, Bool.or_eq_true, Token.isSymbol_iff] at ho
  rcases ho with (ho | ho) | ho
  · exact ⟨_, ho, by decide⟩
  · exact ⟨_, ho, by decide⟩
  · exact ⟨_, ho, by decide⟩

theorem callsAmong_feature {f o : Word} (hf : f.IsName) (ho : isAssignment o.token = true) (ws : List Word) :
    callsAmong m .free (f :: o :: ws) = callsAmong m .free ws := by
  obtain ⟨s, hs, hsilent⟩ := silent_of_assignment ho
  have hno : isNoCall m f (o :: ws) = true := by simp [isNoCall, ho]
  rw [callsAmong, if_pos hf.kind, if_pos hno, callsAmong_silent hs hsilent]

/-- no assignment follows where nothing carries on -/
theorem Apart.not_assignment {rest : List Word} (h : Apart rest) :
    (rest.head?.any fun o => isAssignment o.token) = false := by
  cases rest with
  | nil => rfl
  | cons o rest =>
    have hequals := h .equals (by simp [carriers])
    have hplus := h .plusEquals (by simp [carriers])
    have hquestion := h .questionEquals (by simp [carriers])
    simp only [atSymbol] at hequals hplus hquestion
    simp [isAssignment, hequals, hplus, hquestion]

theorem Apart.no_secondPart {rest : List Word} (h : Apart rest) : secondPart? rest = none := by
  have hcolons := h .doubleColon (by simp [carriers])
  unfold secondPart?
  split
  · next c n more => exact if_neg (Bool.eq_false_iff.1 hcolons)
  · rfl

/-- a name is a call where nothing carries it on -/
theorem callsAmong_named {ws rest : List Word} {v : Token × Option Token} (h : Named ws v)
    (hend : m = .terminal → v.1.value ≠ "EOF") (hrest : Apart rest) :
    callsAmong m .free (ws ++ rest) = callOf v :: callsAmong m .free rest := by
  cases h with
  | @plain n hn =>
    have hcall : isNoCall m n rest = false := by
      rw [isNoCall, hrest.not_assignment, Bool.or_false]
      simpa using hend
    rw [List.singleton_append, callsAmong, if_pos hn.kind, if_neg (by simp [hcall]), hrest.no_secondPart]
  | @qualified q c n hq hc hn =>
    have hcall : isNoCall m q (c :: n :: rest) = false := by
      have hassigned : isAssignment c.token = false := by simp [isAssignment, Token.isSymbol, hc.kind]
      simp only [isNoCall, List.head?_cons, Option.any_some, hassigned, Bool.or_false]
      simpa using hend
    have hsecond : secondPart? (c :: n :: rest) = some n.token := if_pos ((Token.isSymbol_iff ..).2 hc)
    have hskip : callsAmong m .free (c :: n :: rest) = callsAmong m .free rest := by
      simp [callsAmong, Token.isSymbol, hc.kind]
    rw [show [q, c, n] ++ rest = q :: c :: n :: rest from rfl, callsAmong, if_pos hq.kind, if_neg (by simp [hcall]),
      hsecond, hskip]

/-! ## Calls of trees that are put together -/

theorem calls_gather (g : Gathering) (t : Tree) (ts : List Tree) :
    (gather g t ts).calls = (t :: ts).flatMap Element.calls := by
  unfold gather
  cases ts with
  | nil => simp
  | cons u us => rw [calls_eq]; rfl

theorem calls_dress (p : Option Predicate) (c : Option Cardinality) (e : Tree) : (dress p c e).calls = e.calls := by
  have hone : ∀ (d : Decoration) (e : Tree), (Element.compound d .sequence [e]).calls = e.calls := by
    intro d e
    rw [calls_eq]
    simp [target?, children]
  have hpredicate : ∀ p (e : Tree), (withPredicate p e).calls = e.calls := by
    intro p e
    unfold withPredicate
    split
    · exact calls_decorated _ e
    · exact hone _ e
  have hcardinality : ∀ c (e : Tree), (withCardinality c e).calls = e.calls := by
    intro c e
    unfold withCardinality
    split
    · exact hone _ e
    · exact calls_decorated _ e
  unfold dress
  cases p <;> cases c <;> simp [hpredicate, hcardinality]

/-! ## Scanning what is spelled -/

/-- what the scan finds in words that spell trees -/
structure Scanned (m : Mode) (ws : List Word) (ts : List Tree) : Prop where
  ordinary : ∀ w ∈ ws, w.Ordinary
  calls : ∀ rest, Apart rest → callsAmong m .free (ws ++ rest) = ts.flatMap Element.calls ++ callsAmong m .free rest

/-- the parts of a definition of this kind; bars and ampersands stand between the members of its rows -/
def Part.Of (m : Mode) : Part → Prop
  | .member => m = .parser
  | .assignable => m = .parser
  | .operand => m = .terminal
  | .row s p => (s = .bar ∨ s = .ampersand) ∧ p.Of m
  | _ => True

/-- another tree with the same calls -/
theorem Scanned.same {ws : List Word} {ts us : List Tree} (h : Scanned m ws ts)
    (hcalls : us.flatMap Element.calls = ts.flatMap Element.calls) : Scanned m ws us :=
  ⟨h.ordinary, fun rest hrest => by rw [h.calls rest hrest, hcalls]⟩

/-- words that say nothing about calls stand in front -/
theorem Scanned.behind {ws : List Word} {ts : List Tree} (h : Scanned m ws ts) (front : List Word)
    (hordinary : ∀ w ∈ front, w.Ordinary) (hfront : ∀ us, callsAmong m .free (front ++ us) = callsAmong m .free us) :
    Scanned m (front ++ ws) ts :=
  ⟨List.forall_mem_append.2 ⟨hordinary, h.ordinary⟩, fun rest hrest => by
    rw [List.append_assoc, hfront, h.calls rest hrest]⟩

/-- a symbol that says nothing about calls stands behind -/
theorem Scanned.beforeSymbol {ws : List Word} {ts : List Tree} {c : Word} {s : Symbol} (h : Scanned m ws ts) (hc : c.Is s)
    (hs : Silent s) (hcarrier : s ∉ carriers) : Scanned m (ws ++ [c]) ts := by
  refine ⟨List.forall_mem_append.2 ⟨h.ordinary, List.forall_mem_singleton.2 (hs.ordinary hc)⟩, fun rest _ => ?_⟩
  rw [List.append_assoc, List.singleton_append, h.calls _ (apart_of_is hc hcarrier rest), callsAmong_silent hc hs]

/-- a symbol that says nothing about calls stands in front -/
theorem Scanned.behindSymbol {ws : List Word} {ts : List Tree} {o : Word} {s : Symbol} (h : Scanned m ws ts) (ho : o.Is s)
    (hs : Silent s) : Scanned m (o :: ws) ts :=
  h.behind [o] (List.forall_mem_singleton.2 (hs.ordinary ho)) fun us => callsAmong_silent ho hs us

/-- words one after the other, when the second ones do not carry the first ones on -/
theorem Scanned.append {ws us : List Word} {ts vs : List Tree} (h : Scanned m ws ts) (h' : Scanned m us vs)
    (hapart : ∀ rest, Apart rest → Apart (us ++ rest)) : Scanned m (ws ++ us) (ts ++ vs) := by
  refine ⟨List.forall_mem_append.2 ⟨h.ordinary, h'.ordinary⟩, fun rest hrest => ?_⟩
  rw [List.append_assoc, h.calls _ (hapart rest hrest), h'.calls rest hrest, List.flatMap_append, List.append_assoc]

/-- a word that says nothing about calls -/
theorem scanned_word {w : Word} {t : Tree} (hw : w.Ordinary) (hcalls : t.calls = [])
    (hscan : ∀ us, callsAmong m .free (w :: us) = callsAmong m .free us) : Scanned m [w] [t] :=
  ⟨List.forall_mem_singleton.2 hw, fun rest _ => by
    rw [List.singleton_append, hscan, List.flatMap_singleton, hcalls, List.nil_append]⟩

theorem scanned_of_leaf {ws : List Word} {t : Tree} (h : Leaf m ws t) : Scanned m ws [t] := by
  cases h with
  | @keyword w hw =>
    exact scanned_word hw.ordinary (by rw [keywordOf, calls_eq]; rfl) fun us => callsAmong_literal hw us
  | call h =>
    obtain ⟨hv, hend⟩ := h
    refine ⟨hv.ordinary, fun rest hrest => ?_⟩
    rw [callsAmong_named hv hend hrest, List.flatMap_singleton, calls_eq]
    rfl

theorem scanned_of_referenced {ws : List Word} {t : Tree} (h : Referenced ws t) : Scanned .parser ws [t] := by
  obtain ⟨ho, hv, hu, hc⟩ := h
  rename_i o c ws us v t
  have hname : ∀ w ∈ ws, ∀ s ∈ [Symbol.bar, .closeBracket], ¬ w.Is s := by
    intro w hw s hs
    cases hv with
    | plain hn =>
      obtain rfl := List.mem_singleton.1 hw
      simp [hn.kind]
    | qualified hq hcolons hn =>
      have hbar : Symbol.doubleColon ≠ s := by rintro rfl; simp at hs
      simp only [List.mem_cons, List.not_mem_nil, or_false] at hw
      rcases hw with rfl | rfl | rfl
      · simp [hq.kind]
      · simp [hcolons.kind, hbar]
      · simp [hn.kind]
  cases hu with
  | nothing =>
    refine ⟨?_, fun rest _ => ?_⟩
    · rw [List.append_nil]
      exact List.forall_mem_cons.2 ⟨ho.ordinary (by decide),
        List.forall_mem_append.2 ⟨hv.ordinary, List.forall_mem_singleton.2 (hc.ordinary (by decide))⟩⟩
    · rw [List.append_nil, List.cons_append, List.cons_append, callsAmong_bracket ho, List.append_assoc, List.singleton_append,
        callsAmong_inside hname hc (by simp), List.flatMap_singleton, calls_eq]
      rfl
  | @terminal b us t hb ht =>
    have hterminal := (scanned_of_leaf ht).beforeSymbol hc (by decide) (by decide)
    refine ⟨?_, fun rest hrest => ?_⟩
    · rw [List.cons_append, List.append_assoc, List.cons_append]
      exact List.forall_mem_cons.2 ⟨ho.ordinary (by decide), List.forall_mem_append.2
        ⟨hv.ordinary, List.forall_mem_cons.2 ⟨hb.ordinary (by decide), hterminal.ordinary⟩⟩⟩
    · have hwords : o :: (ws ++ b :: us) ++ [c] ++ rest = o :: (ws ++ b :: (us ++ [c] ++ rest)) := by simp
      rw [hwords, callsAmong_bracket ho, callsAmong_inside hname hb (by simp), hterminal.calls rest hrest,
        List.flatMap_singleton, List.flatMap_singleton, calls_eq (.crossReference ..)]
      simp [target?, children]

theorem scanned_of_acts {ws : List Word} {t : Tree} (h : Acts ws t) : Scanned m ws [t] := by
  obtain ⟨ho, hv, hu, hc⟩ := h
  rename_i o c ws us v f
  have hinside : ∀ w ∈ ws ++ us, w.Ordinary ∧ ¬ w.Is .closeBrace := by
    refine List.forall_mem_append.2 ⟨?_, ?_⟩
    · cases hv with
      | plain hn => exact List.forall_mem_singleton.2 ⟨hn.ordinary, by simp [hn.kind]⟩
      | qualified hq hcolons hn =>
        exact List.forall_mem_cons.2 ⟨⟨hq.ordinary, by simp [hq.kind]⟩, List.forall_mem_cons.2
          ⟨⟨hcolons.ordinary (by decide), by simp [hcolons.kind]⟩, List.forall_mem_singleton.2
            ⟨hn.ordinary, by simp [hn.kind]⟩⟩⟩
    · cases hu with
      | nothing => exact List.forall_mem_nil _
      | feature hd hf hop hk =>
        refine List.forall_mem_cons.2 ⟨⟨hd.ordinary (by decide), by simp [hd.kind]⟩, List.forall_mem_cons.2
          ⟨⟨hf.ordinary, by simp [hf.kind]⟩, List.forall_mem_cons.2 ⟨?_, List.forall_mem_singleton.2
            ⟨hk.1.ordinary, by simp [hk.1.kind]⟩⟩⟩⟩
        rcases hop with hop | hop
        · exact ⟨hop.ordinary (by decide), by simp [hop.kind]⟩
        · exact ⟨hop.ordinary (by decide), by simp [hop.kind]⟩
  refine ⟨?_, fun rest _ => ?_⟩
  · exact List.forall_mem_cons.2 ⟨ho.ordinary (by decide), List.forall_mem_append.2
      ⟨fun w hw => (hinside w hw).1, List.forall_mem_singleton.2 (hc.ordinary (by decide))⟩⟩
  · have hskip : ∀ w ∈ ws ++ us, ∀ s ∈ [Symbol.closeBrace], ¬ w.Is s := fun w hw s hs =>
      List.mem_singleton.1 hs ▸ (hinside w hw).2
    rw [List.cons_append, List.cons_append, callsAmong_brace ho, List.append_assoc, List.singleton_append,
      callsAmong_inside hskip hc (List.mem_singleton_self _), List.flatMap_singleton, calls_eq]
    rfl

/-- a predicate or a cardinality says nothing about calls -/
theorem callsAmong_marked {α : Type} {meaning : Token → Option α} {ps : List Word} {p : Option α}
    (h : Marked meaning ps p)
    (hmeaning : ∀ w : Word, (meaning w.token).isSome → ∃ s, w.Is s ∧ Silent s) :
    (∀ w ∈ ps, w.Ordinary) ∧ ∀ us, callsAmong m .free (ps ++ us) = callsAmong m .free us := by
  cases h with
  | absent => exact ⟨List.forall_mem_nil _, fun _ => rfl⟩
  | @present w p hw =>
    obtain ⟨s, hs, hsilent⟩ := hmeaning w (by simp [hw])
    exact ⟨List.forall_mem_singleton.2 (hsilent.ordinary hs), fun us => callsAmong_silent hs hsilent us⟩

theorem silent_of_predicate (w : Word) (h : (predicate? w.token).isSome) : ∃ s, w.Is s ∧ Silent s := by
  unfold predicate? at h
  split at h
  · next hw => exact ⟨_, hw, by decide⟩
  · next hw => exact ⟨_, hw, by decide⟩
  · cases h

theorem silent_of_cardinality (w : Word) (h : (cardinality? w.token).isSome) : ∃ s, w.Is s ∧ Silent s := by
  unfold cardinality? at h
  split at h
  · next hw => exact ⟨_, hw, by decide⟩
  · next hw => exact ⟨_, hw, by decide⟩
  · next hw => exact ⟨_, hw, by decide⟩
  · cases h

/-- the scan finds the calls of what is spelled -/
theorem scanned_of_spells {p : Part} {ws : List Word} {ts : List Tree} (h : Spells m p ws ts) (hp : p.Of m) :
    Scanned m ws ts := by
  induction h with
  | rowOne _ ih => exact ih hp.2
  | @rowMore s p ws us b t ts _ hb _ ih ihrow =>
    have hmore := ihrow hp
    have hmark : Silent s ∧ s ∉ carriers := by
      rcases hp.1 with rfl | rfl
      · exact ⟨by decide, by decide⟩
      · exact ⟨by decide, by decide⟩
    exact (ih hp.2).append (hmore.behindSymbol hb hmark.1) fun rest _ => apart_of_is hb hmark.2 _
  | alternatives _ ih => exact (ih ⟨.inl rfl, trivial⟩).same (by simp [calls_gather])
  | unordered _ ih => exact (ih ⟨.inr rfl, trivial⟩).same (by simp [calls_gather])
  | sequence _ ih => exact (ih trivial).same (by simp [calls_gather])
  | elementsOne _ ih => exact ih trivial
  | @elementsMore ws us t ts _ htail ih ihtail =>
    refine (ih trivial).append (ihtail trivial) fun rest _ => ?_
    obtain ⟨w, more, rfl, hw⟩ := htail.begins
    exact (front_of_opener (m := m) hw (more ++ rest)).2.1
  | action _ h => exact scanned_of_acts h
  | @element ps ws cs p c t hps _ _ hcs ih =>
    obtain ⟨hpredicate, hscan⟩ := callsAmong_marked (m := m) hps silent_of_predicate
    obtain ⟨hcardinality, hscan'⟩ := callsAmong_marked (m := m) hcs silent_of_cardinality
    have hnothing : Scanned m cs [] := ⟨hcardinality, fun rest _ => hscan' rest⟩
    have hinner := ((ih trivial).append hnothing fun rest hrest => apart_of_marked hcs hrest).behind ps hpredicate hscan
    rw [List.append_assoc]
    exact hinner.same (by simp [calls_dress])
  | @assignment f o ws t _ hf ho _ ih =>
    obtain ⟨s, hs, hsilent⟩ := silent_of_assignment ho
    have hfront := (ih ‹m = .parser›).behind [f, o]
      (List.forall_mem_cons.2 ⟨hf.ordinary, List.forall_mem_singleton.2 (hsilent.ordinary hs)⟩)
      fun us => callsAmong_feature hf ho us
    exact hfront.same (by simp [calls_eq (.assignment ..), target?, children])
  | plainAtom _ _ ih => exact ih trivial
  | @upTo a ws t hm ha _ ih =>
    exact ((ih hm).behindSymbol ha (by decide)).same (by simp [calls_eq (.upTo ..), target?, children])
  | plainOperand hm _ ih => exact ih hm
  | @wildcard d hd =>
    exact scanned_word (hd.ordinary (by decide)) (by rw [calls_eq]; rfl) fun us => callsAmong_silent hd (by decide) us
  | @endOfFile n hn =>
    obtain rfl : m = .terminal := hp
    exact scanned_word hn.1.ordinary (by rw [calls_eq]; rfl) fun us => callsAmong_endOfFile hn.1 hn.2 us
  | @range l d r hl hd hr =>
    refine ⟨List.forall_mem_cons.2 ⟨hl.ordinary, List.forall_mem_cons.2 ⟨hd.ordinary (by decide),
      List.forall_mem_singleton.2 hr.ordinary⟩⟩, fun rest _ => ?_⟩
    rw [List.cons_append, List.cons_append, List.cons_append, List.nil_append, callsAmong_literal hl,
      callsAmong_silent hd (by decide), callsAmong_literal hr]
    simp [calls_eq, target?, children, ofPart]
  | @negated b ws t hb _ ih =>
    exact ((ih hp).behindSymbol hb (by decide)).same (by simp [calls_eq (.negated ..), target?, children])
  | operandAtom _ ih => exact ih trivial
  | leaf h => exact scanned_of_leaf h
  | group ho _ hc ih =>
    exact ((ih trivial).behindSymbol ho (by decide)).beforeSymbol hc (by decide) (by decide)
  | crossReference h =>
    obtain rfl : m = .parser := hp
    exact scanned_of_referenced h
  | memberAssignable _ ih => exact ih hp
  | assignableLeaf h =>
    obtain rfl : m = .parser := hp
    exact scanned_of_leaf h
  | assignableGroup ho _ hc ih =>
    have hrow := ((ih ⟨.inl rfl, hp⟩).behindSymbol ho (by decide)).beforeSymbol hc (by decide) (by decide)
    exact hrow.same (by simp [calls_gather])

/-! ## Bodies -/

theorem bodiesFrom_ordinary {front : List Word} (h : ∀ w ∈ front, w.Ordinary) (ws : List Word) :
    bodiesFrom none (front ++ ws) = bodiesFrom none ws := by
  induction front with
  | nil => rfl
  | cons w front ih =>
    obtain ⟨hw, hfront⟩ := List.forall_mem_cons.1 h
    have hcolon : ¬ w.token.isSymbol .colon = true := fun hc => hw.1 ((Token.isSymbol_iff ..).1 hc)
    rw [List.cons_append, bodiesFrom, if_neg hcolon]
    exact ih hfront

theorem bodiesFrom_body {body : List Word} (h : ∀ w ∈ body, w.Ordinary) (before : List Word) {s : Word}
    (hs : s.Is .semicolon) (ws : List Word) :
    bodiesFrom (some before) (body ++ s :: ws) = (before ++ body) :: bodiesFrom none ws := by
  induction body generalizing before with
  | nil =>
    have hclose : s.token.isSymbol .semicolon = true := (Token.isSymbol_iff ..).2 hs
    rw [List.nil_append, List.append_nil]
    exact if_pos hclose
  | cons w body ih =>
    obtain ⟨hw, hbody⟩ := List.forall_mem_cons.1 h
    have hgo : ¬ w.token.isSymbol .semicolon = true := fun hc => hw.2 ((Token.isSymbol_iff ..).1 hc)
    have hstep : bodiesFrom (some before) (w :: (body ++ s :: ws)) =
        bodiesFrom (some (before ++ [w])) (body ++ s :: ws) := if_neg hgo
    rw [List.cons_append, hstep, ih hbody, List.append_assoc, List.singleton_append]

/-- the words of a rule: a header, and a body with the calls of the rule between a colon and a semicolon -/
def RuleWords (words : List Word) (r : WrittenRule) (rest : List Word) : Prop :=
  ∃ head c body s, words = head ++ c :: (body ++ s :: rest) ∧ (∀ w ∈ head, w.Ordinary) ∧ c.Is .colon ∧
    (∀ w ∈ body, w.Ordinary) ∧ s.Is .semicolon ∧ r.calls = r.kind.callsIn body

theorem RuleWords.of_definition {head words rest : List Word} {r : WrittenRule} {t : Tree}
    (hhead : ∀ w ∈ head, w.Ordinary) (ht : (definition m words).Gives t rest) (hr : r.definition = some t)
    (hkind : r.kind.callsIn = callsAmong m .free) : RuleWords (head ++ words) r rest := by
  obtain ⟨c, body, s, rfl, hc, hspells, hs⟩ := (gives_definition ..).1 ht
  have hscanned := scanned_of_spells hspells trivial
  have hcalls := hscanned.calls [] (fun _ _ => rfl)
  refine ⟨head, c, body, s, rfl, hhead, hc, hscanned.ordinary, hs, ?_⟩
  rw [hkind, Declaration.calls, hr]
  simpa [callsAmong] using hcalls.symm

theorem ruleWords_of_parserRule {words rest : List Word} {r : WrittenRule} (h : (parserRule words).Gives r rest) :
    RuleWords words r rest := by
  simp only [parserRule, gives_next', gives_take] at h
  obtain ⟨fragment, _, hfragment, _, behind, ⟨n, rfl, hn, rfl⟩, hbehind⟩ := h
  split at hbehind
  · simp at hbehind
  simp only [gives_next', gives_map] at hbehind
  obtain ⟨_, typed, hstar, type, clause, hreturns, hidden, body, hhidden, t, ht, rfl⟩ := hbehind
  obtain ⟨ws₁, rfl, hws₁⟩ := takes_fragmentHere _ _ _ hfragment
  obtain ⟨ws₂, rfl, hws₂⟩ := takes_starHere _ _ _ _ hstar
  obtain ⟨ws₃, rfl, hws₃⟩ := takes_returnsHere _ _ _ hreturns
  obtain ⟨ws₄, rfl, hws₄⟩ := takes_hiddenHere _ _ _ hhidden
  have hhead : ∀ w ∈ ws₁ ++ n :: (ws₂ ++ (ws₃ ++ ws₄)), w.Ordinary :=
    List.forall_mem_append.2 ⟨hws₁, List.forall_mem_cons.2 ⟨Word.IsName.ordinary hn, List.forall_mem_append.2
      ⟨hws₂, List.forall_mem_append.2 ⟨hws₃, hws₄⟩⟩⟩⟩
  simpa using RuleWords.of_definition hhead ht rfl rfl

theorem ruleWords_of_terminalRule {words rest : List Word} {r : WrittenRule} (h : (terminalRule words).Gives r rest) :
    RuleWords words r rest := by
  simp only [terminalRule, gives_next', gives_take, gives_takeWord, gives_map] at h
  obtain ⟨_, _, ⟨x, rfl, hx, -⟩, fragment, _, hfragment, _, typed, ⟨n, rfl, hn, rfl⟩, type, body, hreturns, t, ht, rfl⟩ := h
  obtain ⟨ws₁, rfl, hws₁⟩ := takes_fragmentHere _ _ _ hfragment
  obtain ⟨ws₂, rfl, hws₂⟩ := takes_returnsHere _ _ _ hreturns
  have hhead : ∀ w ∈ x :: (ws₁ ++ n :: ws₂), w.Ordinary :=
    List.forall_mem_cons.2 ⟨Word.IsName.ordinary hx.1, List.forall_mem_append.2 ⟨hws₁, List.forall_mem_cons.2
      ⟨Word.IsName.ordinary hn, hws₂⟩⟩⟩
  simpa using RuleWords.of_definition hhead ht rfl rfl

/-- the literals of an enumeration call nothing -/
theorem calls_enumLiterals {words rest : List Word} {t : Tree} (h : (enumLiterals words).Gives t rest) : t.calls = [] := by
  have hone : ∀ {words rest : List Word} {t : Tree}, (enumLiteral words).Gives t rest → t.calls = [] := by
    intro words rest t h
    simp only [enumLiteral, gives_next', gives_map] at h
    obtain ⟨n, _, -, keyword, -, rfl⟩ := h
    rw [calls_eq]
    cases keyword <;> simp [children, target?, ofPart, calls_eq]
  simp only [enumLiterals, gives_next', gives_map, gives_behindSymbols] at h
  obtain ⟨first, mid, hfirst, more, hmore, rfl⟩ := h
  have hmoreCalls : ∀ u ∈ more, u.calls = [] := by
    clear hfirst
    induction hmore with
    | stop _ => exact List.forall_mem_nil _
    | more _ hread _ ih => exact List.forall_mem_cons.2 ⟨hone hread, ih⟩
  rw [calls_gather, List.flatMap_eq_nil_iff]
  exact List.forall_mem_cons.2 ⟨hone hfirst, hmoreCalls⟩

theorem ruleWords_of_enumRule {words rest : List Word} {r : WrittenRule} (h : (enumRule words).Gives r rest) :
    RuleWords words r rest := by
  simp only [enumRule, gives_next', gives_take, gives_takeWord, gives_takeSymbol, gives_map] at h
  obtain ⟨_, _, ⟨x, rfl, hx, -⟩, _, typed, ⟨n, rfl, hn, rfl⟩, type, _, hreturns, _, body, ⟨c, rfl, hc, -⟩, t, _, ht, _,
    ⟨s, rfl, hs, -⟩, rfl⟩ := h
  obtain ⟨ws, rfl, hws⟩ := takes_returnsHere _ _ _ hreturns
  obtain ⟨literals, rfl, hliterals⟩ := takes_enumLiterals _ _ _ ht
  have hhead : ∀ w ∈ x :: n :: ws, w.Ordinary :=
    List.forall_mem_cons.2 ⟨Word.IsName.ordinary hx.1, List.forall_mem_cons.2 ⟨Word.IsName.ordinary hn, hws⟩⟩
  exact ⟨x :: n :: ws, c, literals, s, by simp, hhead, hc, hliterals, hs, calls_enumLiterals ht⟩

theorem ruleWords_of_rule {words rest : List Word} {r : WrittenRule} (h : (rule words).Gives r rest) :
    RuleWords words r rest := by
  unfold rule at h
  split at h
  · exact ruleWords_of_terminalRule h
  · split at h
    · exact ruleWords_of_enumRule h
    · exact ruleWords_of_parserRule h

/-- rule by rule, the calls that are read are those of the body -/
theorem calls_of_rulesFrom {words : List Word} {rs : List WrittenRule} (h : RulesFrom words rs) :
    List.Forall₂ (fun r body => r.calls = r.kind.callsIn body) rs (bodies words) := by
  induction h with
  | @none words hwords =>
    rw [bodies, ← List.append_nil words, bodiesFrom_ordinary hwords]
    exact .nil
  | @more before words rest r comment rs hbefore hread _ ih =>
    obtain ⟨head, c, body, s, rfl, hhead, hc, hbody, hs, hcalls⟩ := ruleWords_of_rule hread
    have hopen : bodiesFrom none (c :: (body ++ s :: rest)) = bodiesFrom (some []) (body ++ s :: rest) := by
      rw [bodiesFrom, if_pos ((Token.isSymbol_iff ..).2 hc)]
    rw [bodies, bodiesFrom_ordinary hbefore, bodiesFrom_ordinary hhead, hopen, bodiesFrom_body hbody [] hs]
    exact .cons hcalls ih

end Source

theorem calls_of_enumerated {ρ : Type} {e : Element ρ} (h : Enumerated e) : e.calls = [] := by
  have hliteral : ∀ {e : Element ρ}, IsEnumLiteral e → e.calls = [] := by
    rintro _ ⟨n, k, -, rfl⟩
    cases k <;> simp [calls_eq, target?, children, ofPart]
  cases h with
  | one h => exact hliteral h
  | choice _ hes =>
    simpa [calls_eq (.compound ..), target?, children] using fun e he => hliteral (hes e he)

/-- the calls of a rule are valid -/
theorem Defined.valid {words : List Word} {r : WrittenRule} (h : Defined words r) (hlex : LexicalWords words) :
    ∀ c ∈ r.calls, c.Valid .parser := by
  cases h with
  | parser _ ht hspells hws =>
    rw [Declaration.calls, ht]
    exact valid_of_spells hspells fun w hw => hlex w (hws hw)
  | terminal _ ht hspells hws =>
    rw [Declaration.calls, ht]
    intro c hc
    have hvalid := valid_of_spells hspells (fun w hw => hlex w (hws hw)) c hc
    exact ⟨hvalid.name, hvalid.qualifier, nofun⟩
  | enumeration _ ht he =>
    rw [Declaration.calls, ht, Option.map_some, Option.getD_some, calls_of_enumerated he]
    exact List.forall_mem_nil _

/-- every rule of a text calls what its body calls -/
theorem calls_of_bodies {file : Path} {source : Text} {lexed : Lexed} {w : WrittenGrammar}
    (hlexed : Lexed.ofSource file source = .ok lexed) (h : WrittenGrammar.ofText file source = .ok w) :
    List.Forall₂ (fun r body => r.calls = r.kind.callsIn body) w.rules (bodies (wordsOf lexed.tokens)) := by
  obtain ⟨lexed', hlexed', hwords⟩ := WrittenGrammar.ofText_eq_ok_iff.1 h
  obtain rfl := Except.ok.inj (hlexed.symm.trans hlexed')
  exact calls_of_rulesFrom (rulesFrom_of_ofWords hwords)

end Rulebook
