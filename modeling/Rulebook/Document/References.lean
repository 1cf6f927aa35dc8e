/-
Who refers to whom. A rule refers to the rules that its definition calls, one reference per call, in order; calls that
are not linked refer to nothing. Seen from a document and a mapping, each rule referred to is resolved if the mapping
documents it, and the referrers of a rule are the documents whose definitions call it.

Only documents of the three variants have a definition to look into; anything else is refused.
-/
import Rulebook.Document.Basic

namespace Rulebook

namespace Entry

def definition : Entry → Except Unsupported (Option Definition)
  | doc d =>
    match d.variant with
    | .reference => .error (.document (describe (doc d)) d.variant.className)
    | _ => .ok d.rule.definition
  | foreign c => .error (.document c c)

def kindLabel : Entry → Except Unsupported Text
  | doc d =>
    match d.variant with
    | .parser => .ok (if d.rule.isFragment then "parser fragment" else "parser rule")
    | .terminal => .ok (if d.rule.isFragment then "terminal fragment" else "terminal rule")
    | .enumeration => .ok "enum rule"
    | .reference => .error (.document (describe (doc d)) d.variant.className)
  | foreign c => .error (.document c c)

/-- the rules referred to, one per call, in order -/
def references (e : Entry) : Except Unsupported (List RuleRef) :=
  match e.definition with
  | .error u => .error u
  | .ok definition => .ok (((definition.map Element.calls).getD []).filterMap id)

end Entry

/-- a rule referred to, with its document if there is one -/
structure Reference where
  target : RuleRef
  doc : Option RuleDoc

/-- the references of a list, each rule once, where it comes first -/
def distinctRefs (seen : List RuleId) : List RuleRef → List RuleRef
  | [] => []
  | r :: rs => if r.id ∈ seen then distinctRefs seen rs else r :: distinctRefs (r.id :: seen) rs

/-- the distinct rules that an entry refers to, looked up in a mapping -/
def Entry.resolve (e : Entry) (m : Mapping) : Except Unsupported (List Reference) :=
  match e.references with
  | .error u => .error u
  | .ok refs => .ok ((distinctRefs [] refs).map fun r => ⟨r, m.get? r.id⟩)

/-- the document refers to the rule; one without a definition refers to nothing -/
def RuleDoc.refersTo (d : RuleDoc) (id : RuleId) : Bool :=
  match (Entry.doc d).references with
  | .error _ => false
  | .ok refs => refs.any fun r => r.id = id

/-- the documents of a mapping that refer to the rule of a document -/
def RuleDoc.referrers (d : RuleDoc) (m : Mapping) : List RuleDoc :=
  m.docs.filter fun other => other.refersTo d.rule.id

end Rulebook
