/-
The walk with a stack and the walk by recursion. `Element.walk` keeps the trees it still has to visit in one list; a
`Tour` is such a walk under way, one round at a time, on a stack whose top is its end. `Element.preorder` is the recursive
order: the root, then what is below each child in turn.

What has been visited and what the stack still holds, taken together, is the same after every round (`Tour.kept_round`),
and every round takes one node off, however many it puts on (`Tour.sizeList_round`). So a tour ends after as many rounds
as the tree has nodes.

The address of a node is the way down to it, the number of a child at each step. The walk goes along the addresses of the
tree in increasing order (`map_descend?_addresses`, `addresses_increase`), so that it comes to every node once.

- `walk_is_preorder`: all of it, and what follows for the calls of a definition and for the literals of an enumeration.
- `declared_literals_in_order`: an enumeration of three literals, the second with a keyword, at work.
-/
import Rulebook.Proofs.Yield

namespace Rulebook

open Source Rulebook.Reading

namespace Element

variable {ρ σ : Type}

/-! ## The recursive order -/

/-- the nodes of a tree: the root, and then those of the trees below it, one tree after the other -/
def preorder (e : Element ρ) : List (Element ρ) :=
  e :: e.children.attach.flatMap fun c => preorder c.val
termination_by e.size
decreasing_by exact size_lt_of_child c.property

theorem preorder_eq (e : Element ρ) : e.preorder = e :: e.children.flatMap preorder := by
  rw [preorder, ← List.flatMap_map, List.attach_map_subtype_val]

/-- what holds of a tree when it holds of the trees below it holds of every tree -/
theorem children_induction {P : Element ρ → Prop} (h : ∀ e, (∀ c ∈ e.children, P c) → P e) (e : Element ρ) : P e := by
  induction hn : e.size using Nat.strong_induction_on generalizing e with
  | _ n ih =>
    subst hn
    exact h e fun c hc => ih c.size (size_lt_of_child hc) c rfl

theorem nodes_eq_preorder (e : Element ρ) : e.nodes = e.preorder := by
  induction e using children_induction with
  | h e ih => rw [nodes_eq, preorder_eq, List.flatMap_congr ih]

/-! ## The tour on a stack -/

/-- a walk under way: the nodes visited so far, and a stack of the trees that are still to visit, its top at the end -/
structure Tour (ρ : Type) where
  visited : List (Element ρ)
  stack : List (Element ρ)

namespace Tour

/-- nothing is visited, and the tree lies on the stack -/
def start (e : Element ρ) : Tour ρ := ⟨[], [e]⟩

/-- one round: the tree on top is taken off and visited, and its children are put on, the first of them on top -/
def round (t : Tour ρ) : Tour ρ :=
  match t.stack.getLast? with
  | none => t
  | some e => ⟨t.visited ++ [e], t.stack.dropLast ++ e.children.reverse⟩

theorem round_top (visited below : List (Element ρ)) (e : Element ρ) :
    round ⟨visited, below ++ [e]⟩ = ⟨visited ++ [e], below ++ e.children.reverse⟩ := by
  simp [round]

/-- what is visited and what the stack still holds -/
def kept (t : Tour ρ) : List (Element ρ) := t.visited ++ walk t.stack.reverse

theorem kept_round (t : Tour ρ) : t.round.kept = t.kept := by
  obtain ⟨visited, stack⟩ := t
  induction stack using List.reverseRecOn with
  | nil => rfl
  | append_singleton below e _ =>
    rw [round_top]
    simp only [kept, List.reverse_append, List.reverse_reverse, List.reverse_singleton, List.singleton_append]
    rw [walk, List.append_assoc, List.singleton_append]

theorem sizeList_reverse (es : List (Element ρ)) : sizeList es.reverse = sizeList es := by
  induction es with
  | nil => rfl
  | cons e es ih => rw [List.reverse_cons, sizeList_append, ih, sizeList, sizeList, sizeList, Nat.add_zero, Nat.add_comm]

/-- a round takes off one node, although it puts on the children of it -/
theorem sizeList_round (t : Tour ρ) : sizeList t.round.stack = sizeList t.stack - 1 := by
  obtain ⟨visited, stack⟩ := t
  induction stack using List.reverseRecOn with
  | nil => rfl
  | append_singleton below e _ =>
    rw [round_top, sizeList_append, sizeList_append, sizeList_reverse, sizeList, sizeList, size_eq e]
    omega

theorem kept_rounds (t : Tour ρ) (k : Nat) : (round^[k] t).kept = t.kept := by
  induction k with
  | zero => rfl
  | succ k ih => rw [Function.iterate_succ_apply', kept_round, ih]

theorem sizeList_rounds (t : Tour ρ) (k : Nat) : sizeList (round^[k] t).stack = sizeList t.stack - k := by
  induction k with
  | zero => rfl
  | succ k ih => rw [Function.iterate_succ_apply', sizeList_round, ih, Nat.sub_sub]

theorem eq_nil_of_sizeList {es : List (Element ρ)} (h : sizeList es = 0) : es = [] := by
  cases es with
  | nil => rfl
  | cons e es =>
    rw [sizeList, size_eq e] at h
    omega

theorem sizeList_start (e : Element ρ) : sizeList (start e).stack = e.size := by
  rw [start, sizeList, sizeList, Nat.add_zero]

/-- after as many rounds as the tree has nodes, all are visited and nothing is left -/
theorem rounds_start (e : Element ρ) : round^[e.size] (start e) = ⟨e.nodes, []⟩ := by
  have hkept := kept_rounds (start e) e.size
  have hempty : (round^[e.size] (start e)).stack = [] := by
    apply eq_nil_of_sizeList
    rw [sizeList_rounds, sizeList_start, Nat.sub_self]
  generalize round^[e.size] (start e) = t at hkept hempty
  obtain ⟨visited, stack⟩ := t
  obtain rfl : stack = [] := hempty
  simpa [kept, start, nodes, walk] using hkept

/-- before that, something is left to visit -/
theorem stack_ne_nil {e : Element ρ} {k : Nat} (h : k < e.size) : (round^[k] (start e)).stack ≠ [] := by
  intro hempty
  have hsize := sizeList_rounds (start e) k
  rw [hempty, sizeList_start, sizeList] at hsize
  omega

end Tour

/-! ## Addresses -/

mutual

/-- the addresses of a tree: the root has the empty one, the nodes below have the number of a child in front -/
def addresses (e : Element ρ) : List (List Nat) :=
  [] :: addressesFrom 0 e.children
termination_by (e.size, 0)
decreasing_by
  rw [size_eq e]
  exact .left _ _ (Nat.lt_succ_self _)

/-- the addresses below some children that are counted from a number on -/
def addressesFrom (i : Nat) (es : List (Element ρ)) : List (List Nat) :=
  match es with
  | [] => []
  | c :: cs => (addresses c).map (i :: ·) ++ addressesFrom (i + 1) cs
termination_by (sizeList es, 1)
decreasing_by
  · simp only [sizeList]
    exact Prod.Lex.right' _ (by omega) (by decide)
  · have hsize := size_eq c
    simp only [sizeList]
    exact .left _ _ (by omega)

end

theorem mem_addressesFrom {i : Nat} {es : List (Element ρ)} {p : List Nat} :
    p ∈ addressesFrom i es ↔ ∃ k c q, es[k]? = some c ∧ q ∈ c.addresses ∧ p = (i + k) :: q := by
  induction es generalizing i with
  | nil => simp [addressesFrom]
  | cons c cs ih =>
    rw [addressesFrom, List.mem_append, List.mem_map, ih]
    constructor
    · intro h
      rcases h with ⟨q, hq, rfl⟩ | ⟨k, d, q, hd, hq, rfl⟩
      · exact ⟨0, c, q, rfl, hq, rfl⟩
      · exact ⟨k + 1, d, q, hd, hq, by rw [Nat.add_right_comm, Nat.add_assoc]⟩
    · intro h
      rcases h with ⟨k, d, q, hd, hq, rfl⟩
      cases k with
      | zero =>
        obtain rfl : c = d := Option.some.inj hd
        exact .inl ⟨q, hq, rfl⟩
      | succ k => exact .inr ⟨k, d, q, hd, hq, by rw [Nat.add_right_comm, Nat.add_assoc]⟩

/-- the addresses of a tree are those that lead to a node -/
theorem mem_addresses (e : Element ρ) (p : List Nat) : p ∈ e.addresses ↔ (e.descend? p).isSome := by
  induction p generalizing e with
  | nil => simp [addresses, descend?]
  | cons i p ih =>
    rw [addresses, List.mem_cons, mem_addressesFrom, descend?]
    cases hc : e.children[i]? with
    | none => simp +contextual [hc]
    | some c => simp [hc, ih]

/-- the addresses below some children increase when those of each child do -/
theorem addressesFrom_increase {es : List (Element ρ)} (h : ∀ c ∈ es, c.addresses.Pairwise (· < ·)) (i : Nat) :
    (addressesFrom i es).Pairwise (· < ·) := by
  induction es generalizing i with
  | nil =>
    rw [addressesFrom]
    exact .nil
  | cons c cs ih =>
    obtain ⟨hc, hcs⟩ := List.forall_mem_cons.1 h
    rw [addressesFrom, List.pairwise_append]
    refine ⟨?_, ih hcs (i + 1), ?_⟩
    · rw [List.pairwise_map]
      exact hc.imp fun hlt => List.cons_lt_cons_iff.2 (.inr ⟨rfl, hlt⟩)
    · intro p hp q hq
      obtain ⟨p, -, rfl⟩ := List.mem_map.1 hp
      obtain ⟨k, -, q, -, -, rfl⟩ := mem_addressesFrom.1 hq
      exact List.cons_lt_cons_iff.2 (.inl (by omega))

/-- in the order of the walk, addresses increase: a node comes before those below it, and these from left to right -/
theorem addresses_increase (e : Element ρ) : e.addresses.Pairwise (· < ·) := by
  induction e using children_induction with
  | h e ih =>
    rw [addresses, List.pairwise_cons]
    refine ⟨?_, addressesFrom_increase ih 0⟩
    intro p hp
    obtain ⟨k, -, q, -, -, rfl⟩ := mem_addressesFrom.1 hp
    exact List.nil_lt_cons _ _

/-- the nodes at the addresses below some children, those before them being counted, are the nodes of these -/
theorem map_descend?_addressesFrom {e : Element ρ} (front : List (Element ρ)) {es : List (Element ρ)}
    (hchildren : e.children = front ++ es) (h : ∀ c ∈ es, c.addresses.map c.descend? = c.preorder.map some) :
    (addressesFrom front.length es).map e.descend? = (es.flatMap preorder).map some := by
  induction es generalizing front with
  | nil => rw [addressesFrom, List.flatMap_nil, List.map_nil, List.map_nil]
  | cons c cs ih =>
    obtain ⟨hc, hcs⟩ := List.forall_mem_cons.1 h
    have hhere : e.children[front.length]? = some c := by simp [hchildren]
    have hchild : (c.addresses.map (front.length :: ·)).map e.descend? = c.preorder.map some := by
      rw [← hc, List.map_map]
      exact List.map_congr_left fun p _ => by simp [descend?, hhere]
    have hmore := ih (front ++ [c]) (by simp [hchildren]) hcs
    rw [List.length_append, List.length_singleton] at hmore
    rw [addressesFrom, List.map_append, hchild, hmore, List.flatMap_cons, List.map_append]

/-- the nodes at the addresses of a tree, in order, are its nodes in the recursive order -/
theorem map_descend?_addresses (e : Element ρ) : e.addresses.map e.descend? = e.preorder.map some := by
  induction e using children_induction with
  | h e ih =>
    have hbelow := map_descend?_addressesFrom [] rfl ih
    rw [addresses, preorder_eq, List.map_cons, List.map_cons, descend?]
    exact congrArg _ hbelow

/-! ## Literals -/

/-- what is below a literal is no literal -/
theorem literals_of_literal {e : Element ρ} {l : Text × Text} (h : e.literal? = some l) :
    e.preorder.filterMap literal? = [l] := by
  have hbelow : (e.children.flatMap preorder).filterMap literal? = [] := by
    cases e with
    | literal d n k => cases k <;> simp [children, ofPart, preorder_eq, literal?]
    | _ => cases h
  rw [preorder_eq, List.filterMap_cons_some h, hbelow]

/-- among nodes that are literals, none is passed over -/
theorem map_some_filterMap_literal? {es : List (Element ρ)} (h : ∀ e ∈ es, e.literal?.isSome) :
    (es.filterMap literal?).map some = es.map literal? := by
  induction es with
  | nil => rfl
  | cons e es ih =>
    obtain ⟨he, hes⟩ := List.forall_mem_cons.1 h
    obtain ⟨l, hl⟩ := Option.isSome_iff_exists.1 he
    rw [List.filterMap_cons_some hl, List.map_cons, List.map_cons, ih hes, hl]

theorem literals_flatMap {es : List (Element ρ)} (h : ∀ e ∈ es, e.literal?.isSome) :
    (es.flatMap preorder).filterMap literal? = es.filterMap literal? := by
  induction es with
  | nil => rfl
  | cons e es ih =>
    obtain ⟨he, hes⟩ := List.forall_mem_cons.1 h
    obtain ⟨l, hl⟩ := Option.isSome_iff_exists.1 he
    rw [List.flatMap_cons, List.filterMap_append, literals_of_literal hl, ih hes, List.filterMap_cons_some hl]
    rfl

theorem literals_gather {g : Gathering} {first : Tree} {more : List Tree} (h : ∀ e ∈ first :: more, e.literal?.isSome) :
    (gather g first more).preorder.filterMap literal? = (first :: more).filterMap literal? := by
  cases more with
  | nil =>
    rw [gather, ← literals_flatMap h, List.flatMap_singleton]
  | cons second more =>
    have hgather : gather g first (second :: more) = .compound .none g (first :: second :: more) := rfl
    rw [hgather, preorder_eq, List.filterMap_cons_none rfl]
    exact literals_flatMap h

theorem literal?_map (f : ρ → σ) (e : Element ρ) : (e.map f).literal? = e.literal? := by
  cases e with
  | literal d n k => cases k <;> rfl
  | _ => rfl

theorem literals_map (f : ρ → σ) (e : Element ρ) :
    (e.map f).preorder.filterMap literal? = e.preorder.filterMap literal? := by
  rw [← nodes_eq_preorder, nodes_map, List.filterMap_map, nodes_eq_preorder]
  exact List.filterMap_congr fun x _ => literal?_map f x

/-! ## The walk -/

/-- the walk of a tree, round by round, in the order of the nodes and along their addresses -/
structure Walked (e : Element ρ) : Prop where
  ends : Tour.round^[e.size] (.start e) = ⟨e.preorder, []⟩
  goesOn : ∀ k < e.size, (Tour.round^[k] (.start e)).stack ≠ []
  inOrder : e.nodes = e.preorder
  along : e.nodes.map some = e.addresses.map e.descend?
  everyNode : ∀ p, p ∈ e.addresses ↔ (e.descend? p).isSome
  once : e.addresses.Pairwise (· < ·)

theorem walked (e : Element ρ) : Walked e where
  ends := by rw [Tour.rounds_start, nodes_eq_preorder]
  goesOn _ hk := Tour.stack_ne_nil hk
  inOrder := nodes_eq_preorder e
  along := by rw [nodes_eq_preorder, map_descend?_addresses]
  everyNode := mem_addresses e
  once := addresses_increase e

end Element

open Element

/-! ## Rules and their literals -/

/-- the nodes of the definition of a rule in the recursive order; a rule without a definition has none -/
def Rule.preorder (r : Rule) : List (Element (Option RuleRef)) :=
  (r.definition.map Element.preorder).getD []

theorem Rule.calls_eq (r : Rule) : r.calls = r.preorder.filterMap target? := by
  unfold calls preorder
  cases r.definition with
  | none => rfl
  | some e => rw [Option.map_some, Option.map_some, Option.getD_some, Option.getD_some, Element.calls, nodes_eq_preorder]

theorem Rule.literals_eq (r : Rule) : r.literals = r.preorder.filterMap literal? := by
  unfold literals preorder
  cases r.definition with
  | none => rfl
  | some e =>
    cases hl : e.literal? with
    | none => simp only [hl, nodes_eq_preorder, Option.map_some, Option.getD_some]
    | some l => simp only [hl, literals_of_literal hl, Option.map_some, Option.getD_some]

theorem LiteralWords.isLiteral {ws : List Word} {t : Tree} (h : LiteralWords ws t) : t.literal?.isSome := by
  cases h <;> rfl

theorem LiteralRow.isLiteral {ws : List Word} {ts : List Tree} (h : LiteralRow ws ts) : ∀ t ∈ ts, t.literal?.isSome := by
  induction h with
  | one h => exact List.forall_mem_singleton.2 h.isLiteral
  | more h _ _ ih => exact List.forall_mem_cons.2 ⟨h.isLiteral, ih⟩

/-- an enumeration that is linked has the literals that were declared, in their order, and all of them -/
theorem literals_linkRule (s : Scope) (position : Nat) {r : WrittenRule} {first : Tree} {more : List Tree}
    (hr : r.definition = some (gather .choice first more)) (h : ∀ t ∈ first :: more, t.literal?.isSome) :
    (s.linkRule position r).literals.map some = (first :: more).map literal? := by
  have hliterals : (s.linkRule position r).literals = (first :: more).filterMap literal? := by
    rw [Rule.literals_eq, Rule.preorder, Scope.linkRule]
    simp only [hr, Option.map_some, Option.getD_some]
    rw [literals_map, literals_gather h]
  rw [hliterals, map_some_filterMap_literal? h]

/-- **The walk with a stack is the walk by recursion.** Of every tree: the walk ends, after one round for each node, with
the nodes in the recursive order, every one once. So the calls of a tree or a rule, and the literals of a rule, are those
among its nodes in that order; and wherever the declaration of an enumeration is read, its literals are the ones that
stand between the colon and the semicolon, from left to right, however the enumeration is linked. -/
theorem walk_is_preorder :
    (∀ {ρ : Type} (e : Element ρ), Walked e ∧ e.calls = e.preorder.filterMap target?) ∧
      (∀ r : Rule, r.calls = r.preorder.filterMap target? ∧ r.literals = r.preorder.filterMap literal?) ∧
      ∀ (words rest : List Word) (r : WrittenRule), (rule words).Gives r rest → r.kind = .enumeration →
        ∃ header colon body semicolon literals, words = header ++ colon :: (body ++ semicolon :: rest) ∧
          (∀ w ∈ header ++ body, ¬ w.Is .colon ∧ ¬ w.Is .semicolon) ∧ colon.Is .colon ∧ semicolon.Is .semicolon ∧
          LiteralRow body literals ∧
          ∀ (s : Scope) (position : Nat), (s.linkRule position r).literals.map some = literals.map literal? := by
  refine ⟨?_, ?_, ?_⟩
  · intro ρ e
    exact ⟨walked e, by rw [calls, nodes_eq_preorder]⟩
  · intro r
    exact ⟨r.calls_eq, r.literals_eq⟩
  · intro words rest r hread hkind
    obtain ⟨ws, rfl, hdeclared⟩ := (gives_rule_iff ..).1 hread
    cases hdeclared with
    | parser => cases hkind
    | terminal => cases hkind
    | @enumeration x n c s ts ws type first more hx hn hts hc hrow hs =>
      have hordinary : ∀ w ∈ x :: n :: ts ++ ws, w.Ordinary :=
        List.forall_mem_append.2 ⟨ordinary_enumHeader hx hn hts, hrow.ordinary⟩
      refine ⟨x :: n :: ts, c, ws, s, first :: more, by simp, hordinary, hc, hs, hrow, ?_⟩
      intro scope position
      exact literals_linkRule scope position rfl hrow.isLiteral

/-- the words of `enum E: a | b='x' | c;` -/
def threeLiterals : List Word :=
  List.map (Word.mk · none)
    [⟨.name, "enum", 1, 1, 4⟩, ⟨.name, "E", 1, 6, 1⟩, ⟨.symbol .colon, ":", 1, 7, 1⟩, ⟨.name, "a", 1, 9, 1⟩,
      ⟨.symbol .bar, "|", 1, 11, 1⟩, ⟨.name, "b", 1, 13, 1⟩, ⟨.symbol .equals, "=", 1, 14, 1⟩, ⟨.literal, "x", 1, 15, 3⟩,
      ⟨.symbol .bar, "|", 1, 19, 1⟩, ⟨.name, "c", 1, 21, 1⟩, ⟨.symbol .semicolon, ";", 1, 22, 1⟩]

def threeLiteralsRule : WrittenRule :=
  ⟨.enumeration, "E", none, none, some 1, some (gather .choice (.literal .none "a" none)
    [.literal .none "b" (some ⟨.none, "x"⟩), .literal .none "c" none])⟩

theorem gives_threeLiterals : (rule threeLiterals).Gives threeLiteralsRule [] := by
  have hrow : LiteralRow ((threeLiterals.drop 3).take 7)
      [.literal .none "a" none, .literal .none "b" (some ⟨.none, "x"⟩), .literal .none "c" none] := by
    refine .more (.name ?_) ?_ (.more (.keyword ?_ ?_ ?_) ?_ (.one (.name ?_))) <;> rfl
  refine (gives_rule_iff ..).2 ⟨_, (List.append_nil _).symm, ?_⟩
  exact .enumeration (n := ⟨⟨.name, "E", 1, 6, 1⟩, none⟩) ⟨rfl, rfl⟩ rfl .absent rfl hrow rfl

theorem declared_literals_in_order :
    (rule threeLiterals).Gives threeLiteralsRule [] ∧
      (∀ (s : Scope) (position : Nat), (s.linkRule position threeLiteralsRule).literals.map some =
        [some (.ofString "a", .ofString "a"), some (.ofString "b", .ofString "x"), some (.ofString "c", .ofString "c")]) ∧
      ∃ header colon body semicolon literals, threeLiterals = header ++ colon :: (body ++ [semicolon]) ∧
        (∀ w ∈ header ++ body, ¬ w.Is .colon ∧ ¬ w.Is .semicolon) ∧ colon.Is .colon ∧ semicolon.Is .semicolon ∧
        LiteralRow body literals ∧
        ∀ (s : Scope) (position : Nat), (s.linkRule position threeLiteralsRule).literals.map some =
          literals.map literal? := by
  refine ⟨gives_threeLiterals, ?_, walk_is_preorder.2.2 _ [] _ gives_threeLiterals rfl⟩
  intro s position
  have hdefinition : threeLiteralsRule.definition = some (gather .choice (.literal .none "a" none)
      [.literal .none "b" (some ⟨.none, "x"⟩), .literal .none "c" none]) := rfl
  rw [literals_linkRule s position hdefinition (by decide)]
  rfl

end Rulebook
