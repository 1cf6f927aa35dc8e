/-
Qualifiers of calls. A qualified call is looked up in the used grammars by its last name, in the order of the `with`
clause and each to its depth. The qualifier only keeps it from the own rules of its grammar; it chooses no grammar. So a
call reaches the grammar that it names unless one that is named before declares, or reaches, another rule of the name.

- `qualified_call_linked_iff`: when a qualified call is linked to the rule of a grammar that is used directly;
- `named_grammar_is_passed_by`: two used grammars declare `R`, and a call `b::R` is linked to the other one.
-/
import Rulebook.Proofs.Reprinting

namespace Rulebook

open Source Rulebook.Reading

namespace Grammar

/-- used grammars are searched one after the other -/
theorem findInUsed_append (before after : List Grammar) (name : Text) :
    findInUsed (before ++ after) name = (findInUsed before name).or (findInUsed after name) := by
  induction before with
  | nil => rfl
  | cons g before ih =>
    rw [List.cons_append, findInUsed, findInUsed, ih]
    cases findRule g name <;> rfl

/-- a search that comes to a grammar ends at its first rule of the name -/
theorem findInUsed_declaring {u : Grammar} {name : Text} {r : Rule}
    (hr : (u.rules.find? fun r => r.name = name) = some r) (before after : List Grammar) :
    findInUsed (before ++ u :: after) name = some ((findInUsed before name).getD r) := by
  have hfirst : findInUsed (u :: after) name = some r := by
    rw [findInUsed, findRule_eq_or, hr]
    rfl
  rw [findInUsed_append, hfirst]
  cases findInUsed before name <;> rfl

/-- a qualified call has the rule that the used grammars yield first -/
theorem target_of_qualified {g u : Grammar} {c : WrittenCall} {q : Text} (hc : c.qualifier = some q)
    {before after : List Grammar} (hused : g.used = before ++ u :: after) {r : Rule}
    (hr : (u.rules.find? fun r => r.name = c.name) = some r) :
    g.target c = ((findInUsed before c.name).getD r).ref := by
  simp only [target, meant, hc, hused, findInUsed_declaring hr]

/-- it has the first rule of a grammar that is used directly exactly when the grammars before yield no other rule -/
theorem target_eq_ref_iff {g u : Grammar} {c : WrittenCall} {q : Text} (hc : c.qualifier = some q)
    {before after : List Grammar} (hused : g.used = before ++ u :: after) {r : Rule}
    (hr : (u.rules.find? fun r => r.name = c.name) = some r) :
    g.target c = r.ref ↔ ∀ r', findInUsed before c.name = some r' → r'.id = r.id := by
  rw [target_of_qualified hc hused hr]
  have hname : r.name = c.name := by simpa using List.find?_some hr
  cases hbefore : findInUsed before c.name with
  | none => simp
  | some r' =>
    have hname' := name_of_findInUsed before hbefore
    simp [Rule.ref, hname, hname']

end Grammar

/-- **A qualified call is linked to the first rule of its name in a grammar that is used directly if and only if the
grammars named before that one yield no other rule of the name**; otherwise it has the rule that these yield first.
Neither the own rules of its grammar nor the grammars named behind count. This holds for every text that a reader reads,
whatever it has read before and whatever the files hold, and for every qualifier, the simple name of `u` or another. -/
theorem qualified_call_linked_iff {files : FileTree} {searchPaths : List Path} {file : Path} {base : Option Path}
    {source : Text} {l l' : Library} {g : Grammar} (hl : l.Idle)
    (hg : Library.readText files searchPaths file base source l = (.ok g, l')) :
    ∃ w, WrittenGrammar.ofText file source = .ok w ∧
      g.rules.map (fun r => r.definition) =
        w.rules.map (fun r => r.definition.map (Element.map fun c => some (g.target c))) ∧
      (∀ h h', g.Reaches h → g.Reaches h' → ∀ (i j : Nat) (r r' : Rule), h.rules[i]? = some r →
        h'.rules[j]? = some r' → r.id = r'.id → h = h' ∧ i = j) ∧
      ∀ c ∈ w.calls, ∀ q, c.qualifier = some q → ∀ before u after, g.used = before ++ u :: after →
        ∀ r, (u.rules.find? fun r => r.name = c.name) = some r →
          (g.target c = r.ref ↔ ∀ r', Grammar.findInUsed before c.name = some r' → r'.id = r.id) ∧
          ∀ r', Grammar.findInUsed before c.name = some r' → g.target c = r'.ref := by
  obtain ⟨w, used, l₁, later, hw, -, rfl, rfl, hlater, hglater⟩ := hl.linked hg
  have hlinked := linkedAsFound_link hlater hglater 0
  refine ⟨w, hw, hlinked.trees, hlinked.identity, fun c _ q hc before u after hused r hr => ?_⟩
  refine ⟨Grammar.target_eq_ref_iff hc hused hr, fun r' hr' => ?_⟩
  rw [Grammar.target_of_qualified hc hused hr, hr', Option.getD_some]

/-! ## Two grammars that declare one name -/

namespace Rivals

open Borrowing

/-- the words of a grammar may begin with its name and the names of two grammars that it uses -/
theorem begun_of_uses {x n y u k v : Word} {rest : List Word} (hx : x.IsWord "grammar") (hn : n.IsName)
    (hy : y.IsWord "with") (hu : u.IsName) (hk : k.Is .comma) (hv : v.IsName) (hdot : Undotted rest)
    (hcomma : atSymbol .comma rest = false) :
    Begun (x :: n :: y :: u :: k :: v :: rest) n.token.value [u.token.value, v.token.value] rest := by
  have hwith : Undotted (y :: u :: k :: v :: rest) := by simp [Undotted, atSymbol, Token.isSymbol, hy.1.kind]
  have hbetween : Undotted (k :: v :: rest) := atSymbol_of_is hk (by decide) _
  have hmore : BehindSymbols .comma (fun words name rest => (qualifiedName words).Gives name rest) (k :: v :: rest)
      [v.token.value] rest :=
    .more (by simpa using hk) (gives_qualifiedName_cons hv hdot) (.stop (by simp [atMark_iff, hcomma]))
  refine ⟨y :: u :: k :: v :: rest, gives_header_cons hx hn hwith, ?_⟩
  simp only [usesHere, gives_map, gives_behindWord?, oneOrMore, gives_next', gives_behindSymbols]
  exact ⟨_, .inr ⟨y, _, _, rfl, hy, ⟨_, _, gives_qualifiedName_cons hu hbetween, _, hmore, rfl⟩, rfl⟩, rfl⟩

def rival (name value : Text) : WrittenGrammar := ⟨name, none, [], [], [], [Borrowing.keywordRule "R" value 1]⟩

theorem ofText_rival {name value source : Text} (hcut : Piece.cut source =
      .ok (namePiece "grammar" :: blankPiece :: namePiece name :: blankPiece :: Borrowing.keywordPieces "R" value))
    (hline : ((Mark.after ⟨1, 9⟩ name).after (Text.ofString " ")).line = 1) (file : Path) :
    WrittenGrammar.ofText file source = .ok (rival name value) := by
  refine ofText_of_ofWords hcut ?_ file
  have hrows := rows_keywordPieces "R" value ((Mark.after ⟨1, 9⟩ name).after (Text.ofString " "))
  rw [hline] at hrows
  exact (ofWords_iff ..).2 ⟨_, _, begun_of_name (x := ⟨⟨.name, "grammar", 1, 1, 7⟩, none⟩)
    (n := ⟨⟨.name, name, 1, 9, name.length⟩, none⟩) ⟨rfl, rfl⟩ rfl rfl rfl, clauses_of_none rfl rfl, hrows, rfl⟩

/-- a reader that has read `c` and then `b` -/
def library : Library :=
  let first := (Library.readText ⟨[], []⟩ [] (Path.ofText "c") none (Text.ofString "grammar c R:'x';") .empty).2
  (Library.readText ⟨[], []⟩ [] (Path.ofText "b") none (Text.ofString "grammar b R:'y';") first).2

theorem library_eq : library = (((Library.empty.enter "c").finish (rival "c" "x") []).enter "b").finish
    (rival "b" "y") [] := by
  have hfirst : ∀ file, WrittenGrammar.ofText file (Text.ofString "grammar c R:'x';") = .ok (rival "c" "x") :=
    ofText_rival (by cbv) rfl
  have hsecond : ∀ file, WrittenGrammar.ofText file (Text.ofString "grammar b R:'y';") = .ok (rival "b" "y") :=
    ofText_rival (by cbv) rfl
  rw [library, Library.readText, Library.readText, Library.readWith_of_eachUsed (hfirst _) rfl,
    Library.readWith_of_eachUsed (hsecond _) rfl]
  rfl

theorem idle_library : library.Idle := .readText _ _ _ _ _ (.readText _ _ _ _ _ .start)

/-- a grammar that uses both and calls the rule of each by its qualified name -/
def callerText : Text := Text.ofString "grammar a with c, b A:b::R;B:c::R;"

/-- a rule that calls `R` by its qualified name -/
def callingPieces (name qualifier : Text) : List Piece :=
  [namePiece name, symbolPiece .colon, namePiece qualifier, symbolPiece .doubleColon, namePiece "R",
    symbolPiece .semicolon]

@[inherit_doc callingPieces]
def callingRule (name qualifier : Text) (column : Nat) : WrittenRule :=
  ⟨.parser false [], name, none, none, some 1, some (.call .none ⟨some qualifier, "R", 1, column⟩)⟩

def caller : WrittenGrammar := ⟨"a", none, ["c", "b"], [], [], [callingRule "A" "b" 23, callingRule "B" "c" 30]⟩

theorem ofText_caller (file : Path) : WrittenGrammar.ofText file callerText = .ok caller := by
  have hcut : Piece.cut callerText = .ok ([namePiece "grammar", blankPiece, namePiece "a", blankPiece,
      namePiece "with", blankPiece, namePiece "c", symbolPiece .comma, blankPiece, namePiece "b", blankPiece] ++
      (callingPieces "A" "b" ++ callingPieces "B" "c")) := by cbv
  have hcall : ∀ u c n : Word, u.IsName → c.Is .doubleColon → n.IsName →
      Leaf .parser [u, c, n] (.call .none (callOf (u.token, some n.token))) :=
    fun _ _ _ hu hc hn => .call (.named (.qualified hu hc hn) fun hmode => absurd hmode (by decide))
  refine ofText_of_ofWords hcut ?_ file
  refine (ofWords_iff ..).2 ⟨_, _, begun_of_uses (x := ⟨⟨.name, "grammar", 1, 1, 7⟩, none⟩)
    (n := ⟨⟨.name, "a", 1, 9, 1⟩, none⟩) (y := ⟨⟨.name, "with", 1, 11, 4⟩, none⟩)
    (u := ⟨⟨.name, "c", 1, 16, 1⟩, none⟩) (k := ⟨⟨.symbol .comma, ",", 1, 17, 1⟩, none⟩)
    (v := ⟨⟨.name, "b", 1, 19, 1⟩, none⟩) ⟨rfl, rfl⟩ rfl ⟨rfl, rfl⟩ rfl rfl rfl rfl rfl,
    clauses_of_none rfl rfl, ?_, rfl⟩
  have hfirst := Row.leaf (n := ⟨⟨.name, "A", 1, 21, 1⟩, none⟩) (c := ⟨⟨.symbol .colon, ":", 1, 22, 1⟩, none⟩)
    (s := ⟨⟨.symbol .semicolon, ";", 1, 27, 1⟩, none⟩) rfl rfl
    (hcall ⟨⟨.name, "b", 1, 23, 1⟩, none⟩ ⟨⟨.symbol .doubleColon, "::", 1, 24, 2⟩, none⟩
      ⟨⟨.name, "R", 1, 26, 1⟩, none⟩ rfl rfl rfl) rfl
  have hsecond := Row.leaf (n := ⟨⟨.name, "B", 1, 28, 1⟩, none⟩) (c := ⟨⟨.symbol .colon, ":", 1, 29, 1⟩, none⟩)
    (s := ⟨⟨.symbol .semicolon, ";", 1, 34, 1⟩, none⟩) rfl rfl
    (hcall ⟨⟨.name, "c", 1, 30, 1⟩, none⟩ ⟨⟨.symbol .doubleColon, "::", 1, 31, 2⟩, none⟩
      ⟨⟨.name, "R", 1, 33, 1⟩, none⟩ rfl rfl rfl) rfl
  exact .more hfirst (.more hsecond (.done .none))

/-- what the text is read as: the two grammars that it uses come from the shelf -/
def callerGrammar : Grammar := caller.link 2 [(rival "c" "x").link 0 [], (rival "b" "y").link 1 []]

theorem readText_caller : ∃ l', Library.readText ⟨[], []⟩ [] (Path.ofText "a") none callerText library =
    (.ok callerGrammar, l') := by
  have heach : ∀ load, Library.eachUsed (Library.use ⟨[], []⟩ [] load) ["c", "b"] (library.enter "a") =
      (.ok [(rival "c" "x").link 0 [], (rival "b" "y").link 1 []], library.enter "a") := by
    intro load
    rw [library_eq]
    rfl
  have hfresh : (library.enter "a").fresh = 2 := by
    rw [library_eq]
    rfl
  have hread : Library.readText ⟨[], []⟩ [] (Path.ofText "a") none callerText library = _ :=
    Library.readWith_of_eachUsed (ofText_caller _) (heach _)
  rw [hread, hfresh]
  exact ⟨_, rfl⟩

/-- a call of `R` is linked to the rule of the grammar that is named first, and that is the one it names -/
theorem first_grammar_is_reached : ∃ (g : Grammar) (l' : Library) (w : WrittenGrammar) (c : WrittenCall) (u : Grammar)
    (r : Rule), library.Idle ∧
      Library.readText ⟨[], []⟩ [] (Path.ofText "a") none callerText library = (.ok g, l') ∧
      WrittenGrammar.ofText (Path.ofText "a") callerText = .ok w ∧ c ∈ w.calls ∧ c.qualifier = some "c" ∧
      c.name = "R" ∧ g.used.head? = some u ∧ Grammar.simpleName u.name = "c" ∧ u.rules[0]? = some r ∧
      g.target c = r.ref := by
  obtain ⟨l', hread⟩ := readText_caller
  obtain ⟨w, hw, -, -, hcalls⟩ := qualified_call_linked_iff idle_library hread
  obtain rfl := Except.ok.inj (hw.symm.trans (ofText_caller _))
  have hmem : (⟨some "c", "R", 1, 30⟩ : WrittenCall) ∈ caller.calls := by
    simp [WrittenGrammar.calls, caller, callingRule, Element.calls_eq, Element.target?, Element.children]
  refine ⟨_, l', _, _, _, _, idle_library, hread, hw, hmem, rfl, rfl, rfl, by decide, rfl, ?_⟩
  refine (hcalls _ hmem "c" rfl [] ((rival "c" "x").link 0 []) [(rival "b" "y").link 1 []] rfl _ rfl).1.2 ?_
  rintro r' ⟨⟩

/-- the only grammar of the simple name `b` declares `R`, and a call `b::R` is linked to the rule of another grammar -/
theorem named_grammar_is_passed_by : ∃ (g : Grammar) (l' : Library) (w : WrittenGrammar) (c : WrittenCall)
    (v u : Grammar) (s r : Rule), library.Idle ∧
      Library.readText ⟨[], []⟩ [] (Path.ofText "a") none callerText library = (.ok g, l') ∧
      WrittenGrammar.ofText (Path.ofText "a") callerText = .ok w ∧ c ∈ w.calls ∧ c.qualifier = some "b" ∧
      c.name = "R" ∧ g.used = [v, u] ∧ Grammar.simpleName u.name = "b" ∧ Grammar.simpleName v.name ≠ "b" ∧
      (u.rules.find? fun r => r.name = c.name) = some r ∧ v.rules[0]? = some s ∧ g.target c = s.ref ∧
      g.target c ≠ r.ref := by
  obtain ⟨l', hread⟩ := readText_caller
  have hmem : (⟨some "b", "R", 1, 23⟩ : WrittenCall) ∈ caller.calls := by
    simp [WrittenGrammar.calls, caller, callingRule, Element.calls_eq, Element.target?, Element.children]
  exact ⟨_, l', _, _, _, _, _, _, idle_library, hread, ofText_caller _, hmem, rfl, rfl, rfl, by decide, by decide, rfl,
    rfl, rfl, by decide⟩

end Rivals

end Rulebook
