/-
The walk over a definition. It keeps what it still has to visit in one list; these statements say that the list does not
show: a forest is visited tree by tree (`walk_append`), and a tree is its root and then the trees below it, from left
to right (`nodes_eq`). Giving calls other targets changes no more than that (`nodes_map`).
-/
import Rulebook.Grammar.Element
import Mathlib.Tactic

namespace Rulebook

theorem Decoration.eq_none_of_isNone {d : Decoration} (h : d.isNone = true) : d = .none := by
  obtain ⟨c, p⟩ := d
  simp only [Decoration.isNone, Bool.and_eq_true, Option.isNone_iff_eq_none] at h
  rw [h.1, h.2]
  rfl

namespace Element

variable {ρ σ : Type}

theorem walk_append (xs ys : List (Element ρ)) : walk (xs ++ ys) = walk xs ++ walk ys := by
  fun_induction walk xs with
  | case1 => rfl
  | case2 e es ih => rw [List.cons_append, walk, ← List.append_assoc, ih, List.cons_append]

theorem walk_eq_flatMap (es : List (Element ρ)) : walk es = es.flatMap nodes := by
  induction es with
  | nil => rw [walk, List.flatMap_nil]
  | cons e es ih =>
    rw [show e :: es = [e] ++ es from rfl, walk_append, ih, List.flatMap_append]
    simp [nodes]

/-- the nodes of a tree are its root and the nodes of the trees below it -/
theorem nodes_eq (e : Element ρ) : e.nodes = e :: e.children.flatMap nodes := by
  rw [nodes, walk, List.append_nil, walk_eq_flatMap]

theorem mem_nodes_self (e : Element ρ) : e ∈ e.nodes := by
  rw [nodes_eq]
  exact List.mem_cons_self

theorem mem_nodes_of_child {e c x : Element ρ} (hc : c ∈ e.children) (hx : x ∈ c.nodes) : x ∈ e.nodes := by
  rw [nodes_eq]
  exact List.mem_cons_of_mem _ (List.mem_flatMap.2 ⟨c, hc, hx⟩)

/-- a property of all nodes is a property of the root and of all nodes below each child -/
theorem forall_nodes_iff {P : Element ρ → Prop} (e : Element ρ) :
    (∀ x ∈ e.nodes, P x) ↔ P e ∧ ∀ c ∈ e.children, ∀ x ∈ c.nodes, P x := by
  rw [nodes_eq]
  simp only [List.forall_mem_cons, List.mem_flatMap]
  refine and_congr_right fun _ => ⟨fun h c hc x hx => h x ⟨c, hc, hx⟩, ?_⟩
  intro h x hnode
  rcases hnode with ⟨c, hc, hx⟩
  exact h c hc x hx

/-- the calls of a tree are that of the root and those of the trees below it -/
theorem calls_eq (e : Element ρ) : e.calls = e.target?.toList ++ e.children.flatMap calls := by
  rw [calls, nodes_eq, List.filterMap_cons, List.filterMap_flatMap]
  cases e.target? <;> rfl

/-- every call has the property when the one at the root has it and those of the trees below it have -/
theorem forall_calls_iff {P : ρ → Prop} (e : Element ρ) :
    (∀ t ∈ e.calls, P t) ↔ (∀ t ∈ e.target?, P t) ∧ ∀ c ∈ e.children, ∀ t ∈ c.calls, P t := by
  rw [calls_eq, List.forall_mem_append]
  refine and_congr ?_ ?_
  · simp
  · simp only [List.mem_flatMap]
    exact ⟨fun h c hc t ht => h t ⟨c, hc, ht⟩, fun h t ⟨c, hc, ht⟩ => h c hc t ht⟩

theorem calls_decorated (d : Decoration) (e : Element ρ) : (e.decorated d).calls = e.calls := by
  rw [calls_eq, calls_eq e]
  cases e <;> rfl

/-! ## Other targets -/

theorem mapList_eq_map (f : ρ → σ) (es : List (Element ρ)) : mapList f es = es.map (map f) := by
  induction es with
  | nil => rfl
  | cons e es ih => rw [mapList, ih, List.map_cons]

theorem mapOption_eq_map (f : ρ → σ) (o : Option (Element ρ)) : mapOption f o = o.map (map f) := by
  cases o <;> rfl

theorem decoration_map (f : ρ → σ) (e : Element ρ) : (e.map f).decoration = e.decoration := by
  cases e <;> rfl

theorem map_decorated (f : ρ → σ) (d : Decoration) (e : Element ρ) : (e.decorated d).map f = (e.map f).decorated d := by
  cases e <;> rfl

theorem decoration_decorated (d : Decoration) (e : Element ρ) : (e.decorated d).decoration = d := by
  cases e <;> rfl

theorem decorated_decorated (d d' : Decoration) (e : Element ρ) : (e.decorated d).decorated d' = e.decorated d' := by
  cases e <;> rfl

theorem decorated_self (e : Element ρ) : e.decorated e.decoration = e := by
  cases e <;> rfl

theorem children_map (f : ρ → σ) (e : Element ρ) : (e.map f).children = e.children.map (map f) := by
  cases e with
  | crossReference d n t => cases t <;> rfl
  | compound d g es => exact mapList_eq_map f es
  | literal d n k => cases k <;> rfl
  | _ => rfl

theorem size_le_sizeList {e : Element ρ} {es : List (Element ρ)} (h : e ∈ es) : e.size ≤ sizeList es := by
  induction es with
  | nil => cases h
  | cons x es ih =>
    rw [sizeList]
    rcases List.mem_cons.1 h with rfl | h
    · omega
    · have hle := ih h
      omega

theorem size_lt_of_child {e c : Element ρ} (h : c ∈ e.children) : c.size < e.size := by
  have hle := size_le_sizeList h
  rw [size_eq e]
  omega

theorem nodes_map (f : ρ → σ) (e : Element ρ) : (e.map f).nodes = e.nodes.map (map f) := by
  induction hn : e.size using Nat.strong_induction_on generalizing e with
  | _ n ih =>
    rw [nodes_eq, nodes_eq e, children_map, List.map_cons, List.map_flatMap, List.flatMap_map]
    congr 1
    refine List.flatMap_congr fun c hc => ?_
    exact ih c.size (hn ▸ size_lt_of_child hc) c rfl

theorem calls_map (f : ρ → σ) (e : Element ρ) : (e.map f).calls = e.calls.map f := by
  rw [calls, nodes_map, List.filterMap_map, calls, List.map_filterMap]
  refine List.filterMap_congr fun x _ => ?_
  cases x <;> rfl

theorem map_map {τ : Type} (f : ρ → σ) (g : σ → τ) (e : Element ρ) : (e.map f).map g = e.map (g ∘ f) := by
  induction hn : e.size using Nat.strong_induction_on generalizing e with
  | _ n ih =>
    have hchild : ∀ c ∈ e.children, (c.map f).map g = c.map (g ∘ f) := fun c hc =>
      ih c.size (hn ▸ size_lt_of_child hc) c rfl
    cases e with
    | assignment d n o t => exact congrArg _ (hchild t (by simp [children]))
    | crossReference d n t =>
      cases t with
      | none => rfl
      | some t => exact congrArg (fun t => crossReference d n (some t)) (hchild t (by simp [children]))
    | compound d g' es =>
      simp only [map, mapList_eq_map, List.map_map]
      exact congrArg _ (List.map_congr_left hchild)
    | negated d e => exact congrArg _ (hchild e (by simp [children]))
    | upTo d e => exact congrArg _ (hchild e (by simp [children]))
    | _ => rfl

theorem calls_of_child {e c : Element ρ} (hc : c ∈ e.children) {x : ρ} (hx : x ∈ c.calls) : x ∈ e.calls := by
  obtain ⟨y, hy, htarget⟩ := List.mem_filterMap.1 hx
  exact List.mem_filterMap.2 ⟨y, mem_nodes_of_child hc hy, htarget⟩

/-- only the targets that a tree calls count -/
theorem map_congr {f g : ρ → σ} {e : Element ρ} (h : ∀ c ∈ e.calls, f c = g c) : e.map f = e.map g := by
  induction hn : e.size using Nat.strong_induction_on generalizing e with
  | _ n ih =>
    have hchild : ∀ c ∈ e.children, c.map f = c.map g := fun c hc =>
      ih c.size (hn ▸ size_lt_of_child hc) (fun x hx => h x (calls_of_child hc hx)) rfl
    cases e with
    | call d t => exact congrArg _ (h t (List.mem_filterMap.2 ⟨_, mem_nodes_self _, rfl⟩))
    | assignment d n o t => exact congrArg _ (hchild t (by simp [children]))
    | crossReference d n t =>
      cases t with
      | none => rfl
      | some t => exact congrArg (fun t => crossReference d n (some t)) (hchild t (by simp [children]))
    | compound d g' es =>
      simp only [map, mapList_eq_map]
      exact congrArg _ (List.map_congr_left hchild)
    | negated d e => exact congrArg _ (hchild e (by simp [children]))
    | upTo d e => exact congrArg _ (hchild e (by simp [children]))
    | _ => rfl

end Element

end Rulebook
