/-
Sessions with a registry. A session is a row of requests, and each of them is answered by the registry that the request
before it left (`history`, `after`). A step changes the registry only when it registers a class under a new name, and then
adds this one registration behind the others (`step_cases`). So by induction a session leaves exactly the registrations
that it granted, each name once (`after_eq`, `nodup_after`), and all answers can be told from what was granted.

Objects are asked, and what they are asked may fail. So a request may be answered with the failure of an object in place of
a refusal, and it is said when.

- `session_tells`: what any request is answered after any session;
- `foreign_failures_escape`: a name that is taken and an object without a name, and a class that makes nothing, which is
  registered and then fails. Neither failure is the registry's own.
-/
import Mathlib.Data.List.Lex
import Mathlib.Data.List.Sort
import Rulebook.Document.Registry

namespace Rulebook

/-! ## The order of code points -/

namespace Text

/-- texts are ordered as the rows of their numbers are -/
theorem precedes_iff (t u : Text) : precedes t u = true ↔ t.map CodePoint.val ≤ u.map CodePoint.val := by
  rw [← not_lt]
  induction t generalizing u with
  | nil => simp [precedes]
  | cons a as ih =>
    cases u with
    | nil => simp [precedes]
    | cons b bs =>
      rw [precedes, List.map_cons, List.map_cons, List.cons_lt_cons_iff]
      split
      · next heq =>
        rw [ih, heq]
        simp
      · next hne =>
        rw [decide_eq_true_iff, or_iff_left fun heq => hne heq.1.symm]
        omega

theorem map_val_injective : Function.Injective (List.map CodePoint.val) := by
  apply List.map_injective_iff.2
  intro a b h
  cases a
  cases b
  cases h
  rfl

end Text

namespace Registry

section

variable {φ : Type}

theorem perm_names (r : Registry φ) : r.names.Perm (r.map Prod.fst) := List.mergeSort_perm _ _

/-- different names are listed in strictly increasing order -/
theorem increasing_names {r : Registry φ} (h : (r.map Prod.fst).Nodup) :
    (r.names.map (List.map CodePoint.val)).Pairwise (· < ·) := by
  have hsorted : r.names.Pairwise fun t u => Text.precedes t u = true := by
    apply List.pairwise_mergeSort
    · intro t u v htu huv
      rw [Text.precedes_iff] at htu huv ⊢
      exact htu.trans huv
    · intro t u
      rw [Bool.or_eq_true, Text.precedes_iff, Text.precedes_iff]
      exact le_total _ _
  have hdistinct : r.names.Nodup := (perm_names r).nodup_iff.2 h
  rw [List.pairwise_map]
  refine (hsorted.and hdistinct).imp fun {t u} htu => ?_
  exact lt_of_le_of_ne ((Text.precedes_iff t u).1 htu.1) fun heq => htu.2 (Text.map_val_injective heq)

end

/-! ## Requests and answers -/

inductive Request (φ : Type) where
  | register (name : Text) (offered : Candidate φ)
  | get (name : Text) (options : Option Options)
  | list
  | describe

inductive Answer (φ : Type) where
  | registered
  | formatter (f : φ)
  | names (names : List Text)
  | described (infos : List FormatterInfo)
  | refused (e : RegistryError)

variable {φ : Type}

/-- the answer to a request, and the registry behind it. A refusal leaves the registry as it was -/
def step (r : Registry φ) : Request φ → Answer φ × Registry φ
  | .register name offered =>
    match r.register name offered with
    | .ok next => (.registered, next)
    | .error e => (.refused e, r)
  | .get name options =>
    match r.get name options with
    | .ok f => (.formatter f, r)
    | .error e => (.refused e, r)
  | .list => (.names r.names, r)
  | .describe =>
    match r.describe with
    | .ok infos => (.described infos, r)
    | .error f => (.refused (.failed f), r)

/-- the requests of a session with their answers -/
def history (r : Registry φ) : List (Request φ) → List (Request φ × Answer φ)
  | [] => []
  | q :: qs => (q, (r.step q).1) :: history (r.step q).2 qs

def after (r : Registry φ) : List (Request φ) → Registry φ
  | [] => r
  | q :: qs => after (r.step q).2 qs

/-- what was registered: the requests to register that were not refused, in order -/
def granted (past : List (Request φ × Answer φ)) : List (Text × Candidate φ) :=
  past.filterMap fun
    | (.register name offered, .registered) => some (name, offered)
    | _ => none

end Registry

/-- a class with all operations of a formatter -/
def Candidate.IsFormatter {φ : Type} (offered : Candidate φ) : Prop := ∃ c, offered.maker? = .ok (some c)

/-- the failure of an object while it is registered: it has no name to be refused with under a name that is taken, or it
does not say whether it is a class with all operations, or it is none and has no form to be refused with -/
def Candidate.FailsWith {φ : Type} (offered : Candidate φ) (taken : Prop) (f : Failure) : Prop :=
  taken ∧ offered.name = .error f ∨
    ¬ taken ∧ (offered.maker? = .error f ∨ offered.maker? = .ok none ∧ offered.shown = .error f)

/-- a refusal by the registry itself, in place of the failure of an object that it has asked -/
def RegistryError.IsRefusal : RegistryError → Prop
  | .failed _ => False
  | _ => True

namespace Registry

variable {φ : Type}

/-! ## One step -/

theorem lookup_eq_none_iff {α : Type} {r : List (Text × α)} {name : Text} :
    r.lookup name = none ↔ name ∉ r.map Prod.fst := by
  rw [List.lookup_eq_none_iff]
  constructor
  · intro h hmem
    obtain ⟨p, hp, rfl⟩ := List.mem_map.1 hmem
    exact absurd (h p hp) (by simp)
  · intro h p hp
    apply bne_iff_ne.2
    rintro rfl
    exact h (List.mem_map_of_mem hp)

theorem exists_lookup {α : Type} {r : List (Text × α)} {name : Text} (h : name ∈ r.map Prod.fst) :
    ∃ a, r.lookup name = some a := by
  rw [← Option.isSome_iff_exists, ← Option.ne_none_iff_isSome, Ne, lookup_eq_none_iff, not_not]
  exact h

/-- a class with all operations is registered under a name that is free -/
theorem register_free {r : Registry φ} {name : Text} (h : name ∉ r.map Prod.fst) {offered : Candidate φ} {c : Maker φ}
    (hc : offered.maker? = .ok (some c)) : r.register name offered = .ok (r ++ [(name, c)]) := by
  simp only [register, lookup_eq_none_iff.2 h, hc]

/-- everything else is refused, or the object fails -/
theorem register_refused {r : Registry φ} {name : Text} {offered : Candidate φ}
    (h : ¬ (name ∉ r.map Prod.fst ∧ offered.IsFormatter)) :
    ∃ e, r.register name offered = .error e ∧ ∀ f, e = .failed f ↔ offered.FailsWith (name ∈ r.map Prod.fst) f := by
  by_cases htaken : name ∈ r.map Prod.fst
  · obtain ⟨c, hc⟩ := exists_lookup htaken
    simp only [register, hc, Candidate.FailsWith, htaken, true_and, not_true, false_and, or_false]
    cases offered.name with
    | ok own => exact ⟨_, rfl, by simp⟩
    | error f => exact ⟨_, rfl, by simp⟩
  · have hfree := lookup_eq_none_iff.2 htaken
    simp only [register, hfree, Candidate.FailsWith, htaken, false_and, not_false_eq_true, true_and, false_or]
    cases hmaker : offered.maker? with
    | error f => exact ⟨_, rfl, by simp⟩
    | ok maker =>
      cases maker with
      | some c => exact absurd ⟨htaken, c, hmaker⟩ h
      | none =>
        cases offered.shown with
        | ok shown => exact ⟨_, rfl, by simp⟩
        | error f => exact ⟨_, rfl, by simp⟩

/-- a request changes nothing, and no registration is granted, or it registers a class under a new name -/
theorem step_cases (r : Registry φ) (q : Request φ) :
    ((r.step q).2 = r ∧ granted [(q, (r.step q).1)] = []) ∨
      ∃ name offered c, q = .register name offered ∧ offered.maker? = .ok (some c) ∧ name ∉ r.map Prod.fst ∧
        r.step q = (.registered, r ++ [(name, c)]) := by
  cases q with
  | register name offered =>
    by_cases h : name ∉ r.map Prod.fst ∧ offered.IsFormatter
    · obtain ⟨hfree, c, hc⟩ := h
      exact .inr ⟨name, offered, c, rfl, hc, hfree, by rw [step, register_free hfree hc]⟩
    · obtain ⟨e, he, -⟩ := register_refused h
      refine .inl ⟨by rw [step, he], ?_⟩
      rw [step, he]
      rfl
  | get name options =>
    refine .inl ⟨?_, rfl⟩
    rw [step]
    split <;> rfl
  | list => exact .inl ⟨rfl, rfl⟩
  | describe =>
    refine .inl ⟨?_, rfl⟩
    rw [step]
    split <;> rfl

/-! ## Sessions -/

theorem granted_cons (p : Request φ × Answer φ) (past : List (Request φ × Answer φ)) :
    granted (p :: past) = granted [p] ++ granted past := by
  rw [granted, ← List.singleton_append, List.filterMap_append]
  rfl

/-- a session adds the classes that it grants, in order -/
theorem after_eq (r : Registry φ) (qs : List (Request φ)) :
    (r.after qs).map (Prod.map id fun c => .ok (some c)) =
      r.map (Prod.map id fun c => .ok (some c)) ++ (granted (r.history qs)).map (Prod.map id Candidate.maker?) := by
  induction qs generalizing r with
  | nil => simp [after, history, granted]
  | cons q qs ih =>
    rw [after, ih, history, granted_cons]
    rcases step_cases r q with ⟨hsame, hnothing⟩ | ⟨name, offered, c, rfl, hc, -, hstep⟩
    · rw [hsame, hnothing, List.nil_append]
    · rw [hstep]
      simp [granted, hc]

/-- no session registers a name twice -/
theorem nodup_after {r : Registry φ} (h : (r.map Prod.fst).Nodup) (qs : List (Request φ)) :
    ((r.after qs).map Prod.fst).Nodup := by
  induction qs generalizing r with
  | nil => exact h
  | cons q qs ih =>
    apply ih
    rcases step_cases r q with ⟨hsame, -⟩ | ⟨name, offered, c, rfl, -, hfree, hstep⟩
    · rw [hsame]
      exact h
    · rw [hstep, List.map_append, List.map_singleton]
      exact List.nodup_append.2 ⟨h, List.nodup_singleton name, fun t ht u hu heq => hfree (by simp_all)⟩

/-! ## The list of classes -/

theorem fst_sorted (r : Registry φ) : r.sorted.map Prod.fst = r.names := by
  have hfound : ∀ name ∈ r.names, ∃ c, r.lookup name = some c := fun name hname =>
    exists_lookup ((perm_names r).mem_iff.1 hname)
  rw [sorted]
  generalize r.names = names at hfound
  induction names with
  | nil => rfl
  | cons name names ih =>
    obtain ⟨⟨c, hc⟩, hmore⟩ := List.forall_mem_cons.1 hfound
    rw [List.filterMap_cons, hc, Option.map_some, List.map_cons, ih hmore]

theorem lookup_of_mem_sorted {r : Registry φ} {p : Text × Maker φ} (h : p ∈ r.sorted) : r.lookup p.1 = some p.2 := by
  obtain ⟨name, -, hp⟩ := List.mem_filterMap.1 h
  obtain ⟨c, hc, rfl⟩ := Option.map_eq_some_iff.1 hp
  exact hc

/-- a row of steps gives what each step gives, or fails as the first step that fails -/
theorem mapM_cases {α β ε : Type} (f : α → Except ε β) (as : List α) :
    (∃ bs, as.mapM f = .ok bs ∧ List.Forall₂ (fun a b => f a = .ok b) as bs) ∨
      ∃ before a behind e, as.mapM f = .error e ∧ as = before ++ a :: behind ∧ (∀ x ∈ before, ∃ b, f x = .ok b) ∧
        f a = .error e := by
  induction as with
  | nil => exact .inl ⟨[], rfl, .nil⟩
  | cons a as ih =>
    rw [List.mapM_cons]
    cases ha : f a with
    | error e => exact .inr ⟨[], a, as, e, rfl, rfl, by simp, ha⟩
    | ok b =>
      obtain ⟨bs, has, hbs⟩ | ⟨before, x, behind, e, has, rfl, hbefore, hx⟩ := ih
      · exact .inl ⟨b :: bs, by rw [has]; rfl, .cons ha hbs⟩
      · exact .inr ⟨a :: before, x, behind, e, by rw [has]; rfl, rfl, List.forall_mem_cons.2 ⟨⟨b, ha⟩, hbefore⟩, hx⟩

/-! ## What a session tells -/

/-- what the class says that was registered first under a name, when it is listed -/
def Listed (past : List (Request φ × Answer φ)) (name : Text) (said : Except Failure FormatterInfo) : Prop :=
  ∃ offered c, (granted past).lookup name = some offered ∧ offered.maker? = .ok (some c) ∧ c.info name = said

/-- what requests are answered by a registry, told from what was registered before -/
structure Tells (past : List (Request φ × Answer φ)) (r : Registry φ) : Prop where
  /-- an object is registered exactly when it is a class with all operations and the name is new -/
  registers : ∀ name offered, (r.step (.register name offered)).1 = .registered ↔
    name ∉ (granted past).map Prod.fst ∧ offered.IsFormatter
  /-- else it is refused and nothing changes; the refusal is the registry's own unless the object itself fails -/
  refuses : ∀ name offered, (r.step (.register name offered)).1 ≠ .registered →
    ∃ e, r.step (.register name offered) = (.refused e, r) ∧
      ∀ f, e = .failed f ↔ offered.FailsWith (name ∈ (granted past).map Prod.fst) f
  /-- the names that were registered are listed, each of them once and by code points -/
  lists : ∃ names, r.step .list = (.names names, r) ∧ names.Perm ((granted past).map Prod.fst) ∧
    (names.map (List.map CodePoint.val)).Pairwise (· < ·)
  /-- the same names are described by what their classes say; the first class that fails is the answer -/
  describes : ∃ names, r.step .list = (.names names, r) ∧
    ((∃ infos, r.step .describe = (.described infos, r) ∧
        List.Forall₂ (fun name info => Listed past name (.ok info)) names infos) ∨
      ∃ before name behind f, r.step .describe = (.refused (.failed f), r) ∧ names = before ++ name :: behind ∧
        (∀ n ∈ before, ∃ info, Listed past n (.ok info)) ∧ Listed past name (.error f))
  /-- a name gives what the class makes that was registered first under it, with the options or the standard ones: a
  formatter, or the failure of the class -/
  gets : ∀ name options offered, (granted past).lookup name = some offered →
    ∃ c, offered.maker? = .ok (some c) ∧
      (∀ f, c.make (options.getD .standard) = .ok f → r.step (.get name options) = (.formatter f, r)) ∧
      ∀ f, c.make (options.getD .standard) = .error f → r.step (.get name options) = (.refused (.failed f), r)
  /-- a name that was not registered is refused, with all that were -/
  misses : ∀ name options, (granted past).lookup name = none →
    ∃ known, r.step (.get name options) = (.refused (.unknown name known), r) ∧ r.step .list = (.names known, r)

section

variable {past : List (Request φ × Answer φ)} {r : Registry φ}

/-- what a registry holds is what was granted: the same names in the same order, and the classes that were offered -/
def Holds (r : Registry φ) (past : List (Request φ × Answer φ)) : Prop :=
  r.map (Prod.map id fun c => .ok (some c)) = (granted past).map (Prod.map id Candidate.maker?)

theorem Holds.fst (h : Holds r past) : (granted past).map Prod.fst = r.map Prod.fst := by
  have hnames := congrArg (List.map Prod.fst) h
  rw [List.map_map, List.map_map] at hnames
  exact hnames.symm

theorem Holds.lookup (h : Holds r past) (name : Text) :
    (r.lookup name).map (fun c => .ok (some c)) = ((granted past).lookup name).map Candidate.maker? := by
  rw [← lookup_map_id, h, lookup_map_id]

/-- a class that a registry holds was registered first under its name -/
theorem Holds.listed (h : Holds r past) {name : Text} {c : Maker φ} (hc : r.lookup name = some c) :
    Listed past name (c.info name) := by
  have hoffered := h.lookup name
  rw [hc, Option.map_some] at hoffered
  obtain ⟨offered, hlookup, hmaker⟩ := Option.map_eq_some_iff.1 hoffered.symm
  exact ⟨offered, c, hlookup, hmaker, rfl⟩

theorem Holds.describes (h : Holds r past) :
    (∃ infos, r.step .describe = (.described infos, r) ∧
        List.Forall₂ (fun name info => Listed past name (.ok info)) r.names infos) ∨
      ∃ before name behind f, r.step .describe = (.refused (.failed f), r) ∧ r.names = before ++ name :: behind ∧
        (∀ n ∈ before, ∃ info, Listed past n (.ok info)) ∧ Listed past name (.error f) := by
  have hlisted : ∀ p ∈ r.sorted, Listed past p.1 (p.2.info p.1) := fun p hp => h.listed (lookup_of_mem_sorted hp)
  rw [← fst_sorted]
  obtain ⟨infos, hinfos, hall⟩ | ⟨before, p, behind, f, hfailed, hsorted, hbefore, hp⟩ :=
    mapM_cases (fun p => p.2.info p.1) r.sorted
  · refine .inl ⟨infos, by rw [step, describe, hinfos], ?_⟩
    rw [List.forall₂_map_left_iff]
    exact ((List.forall₂_and_left _ _).2 ⟨hlisted, hall⟩).imp fun p info hp => hp.2 ▸ hp.1
  · refine .inr ⟨before.map Prod.fst, p.1, behind.map Prod.fst, f, by rw [step, describe, hfailed], by rw [hsorted]; simp, ?_,
      hp ▸ hlisted p (by rw [hsorted]; simp)⟩
    intro name hname
    obtain ⟨q, hq, rfl⟩ := List.mem_map.1 hname
    obtain ⟨info, hinfo⟩ := hbefore q hq
    exact ⟨info, hinfo ▸ hlisted q (by rw [hsorted]; exact List.mem_append_left _ hq)⟩

end

/-- **Sessions are told by what they grant**: after every row of requests to a new registry, whatever is offered to it. An
object is registered exactly when it is a class with all operations and its name has not been registered before, and
whatever else happens leaves the registry as it was. The listed names are those that were registered, each once and in the
order of code points. Each of them stands for the class that it was first registered with: a formatter is what that class
makes, or the class fails as it is asked to. Every other refusal is the registry's own, unless the object that is refused
fails when it is asked for its name, for its form in a message, or whether it is a class with all operations. -/
theorem session_tells (qs : List (Request φ)) : Tells (history .empty qs) (after .empty qs) := by
  let r : Registry φ := after .empty qs
  have hholds : Holds r (history .empty qs) := after_eq .empty qs
  have hnames := hholds.fst
  have hdistinct : (r.map Prod.fst).Nodup := nodup_after (r := .empty) List.nodup_nil qs
  refine ⟨fun name offered => ?_, fun name offered h => ?_, ?_, ⟨r.names, rfl, hholds.describes⟩,
    fun name options offered h => ?_, fun name options h => ?_⟩
  · rw [hnames]
    constructor
    · intro h
      by_contra hrefused
      obtain ⟨e, he, -⟩ := register_refused hrefused
      rw [step, he] at h
      cases h
    · rintro ⟨hfree, c, hc⟩
      rw [step, register_free hfree hc]
  · rw [hnames]
    have hrefused : ¬ (name ∉ r.map Prod.fst ∧ offered.IsFormatter) := by
      rintro ⟨hfree, c, hc⟩
      exact h (by rw [step, register_free hfree hc])
    obtain ⟨e, he, hfails⟩ := register_refused hrefused
    exact ⟨e, by rw [step, he], hfails⟩
  · exact ⟨r.names, rfl, hnames ▸ perm_names r, increasing_names hdistinct⟩
  · have hlookup := hholds.lookup name
    rw [h, Option.map_some] at hlookup
    obtain ⟨c, hc, hmaker⟩ := Option.map_eq_some_iff.1 hlookup
    refine ⟨c, hmaker.symm, fun f hf => ?_, fun f hf => ?_⟩
    · rw [step, get_eq hc, hf]
      rfl
    · rw [step, get_eq hc, hf]
      rfl
  · have hlookup := hholds.lookup name
    rw [h, Option.map_none, Option.map_eq_none_iff] at hlookup
    exact ⟨r.names, by rw [step, get, hlookup], rfl⟩

/-- the built-in classes stand in a registry that they were registered with, so sessions with it are told as well -/
example : after .empty [.register "markdown" (.ofClass .markdown), .register "text" (.ofClass .plainText),
    .register "dot" (.ofClass .dot)] = .standard := rfl

/-- two failures that are not the registry's: a name that is taken, and an object that has none of its own; and a class
that has all operations and is registered, but makes no formatter when it is asked for one or listed -/
theorem foreign_failures_escape :
    (∃ r e, after .empty [.register "a" (.ofClass .markdown)] = r ∧
      r.step (.register "a" (.ofText "oops")) = (.refused e, r) ∧ ¬ e.IsRefusal) ∧
    ∃ r : Registry Formatter, ∃ e, step .empty (.register "p" .contract) = (.registered, r) ∧
      r.step (.get "p" none) = (.refused e, r) ∧ r.step .describe = (.refused e, r) ∧ ¬ e.IsRefusal := by
  refine ⟨⟨_, .failed (.missing ⟨"str", "__name__"⟩), rfl, rfl, id⟩,
    _, .failed (.other "TypeError" "Protocols cannot be instantiated"), rfl, rfl, ?_, id⟩
  rw [step, describe, sorted, names, empty, List.nil_append, List.map_singleton, List.mergeSort_singleton]
  rfl

end Registry

end Rulebook
