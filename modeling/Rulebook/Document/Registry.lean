/-
The registry of formatter classes by name. A name is registered once, and only for a class that has all operations of a
formatter; whatever else is offered is refused and changes nothing. Names are listed in the order of their code points.

Anyone may offer anything, so what a registry asks an object for may fail: its name, its form in a message, whether it is
a class with all operations. The operations say nothing about how a class makes its formatters, so this may fail as well,
long after the class has been registered. Such a failure is passed on as it is. The formatters are of any type `φ`.
-/
import Rulebook.Document.Formatter
import Rulebook.Failure

namespace Rulebook

/-- a class with all operations of a formatter, as a registry uses it: what it says about itself, the formatter that it
makes with some options, and the extension that a formatter answers -/
structure Maker (φ : Type) where
  about : Except Failure (Option Text)
  make : Options → Except Failure φ
  extension : φ → Except Failure Text

/-- what may be offered to a registry: its name, the form that a message gives it when it is no class with all
operations, and the class that it is, if it is one -/
structure Candidate (φ : Type) where
  name : Except Failure Text
  shown : Except Failure Text
  maker? : Except Failure (Option (Maker φ))

/-- a class of the library makes a formatter with all options -/
def FormatterClass.maker (c : FormatterClass) : Maker Formatter where
  about := .ok c.about
  make := fun options => .ok ⟨c, options⟩
  extension := fun f => .ok f.cls.extension

namespace Candidate

def ofClass (c : FormatterClass) : Candidate Formatter := ⟨.ok c.name, .ok (Text.quoted c.name), .ok (some c.maker)⟩

variable {φ : Type}

/-- a text in place of a class. It has no name -/
def ofText (t : Text) : Candidate φ := ⟨.error (.missing ⟨"str", "__name__"⟩), .ok (Text.quoted t), .ok none⟩

/-- the contract of formatters itself. It is a class and has the operations that it asks for, but it makes nothing -/
def contract : Candidate φ where
  name := .ok "GrammarDocsFormatter"
  shown := .ok (Text.quoted "GrammarDocsFormatter")
  maker? := .ok (some
    { about := .ok (some "Transforms grammar documentation into a textual format.")
      make := fun _ => .error (.other "TypeError" "Protocols cannot be instantiated")
      extension := fun _ => .ok [] })

end Candidate

/-- why a registry gives no answer: it refuses, or an object that it asks fails -/
inductive RegistryError where
  | taken (name offered : Text)
  | invalid (shown : Text)
  | unknown (name : Text) (known : List Text)
  | failed (f : Failure)
  deriving DecidableEq, Repr

def RegistryError.message : RegistryError → Text
  | .taken name offered => "Formatter '" ++ name ++ "' is already registered. Cannot register " ++ offered ++ "."
  | .invalid shown =>
    "Formatter class " ++ shown ++ " must implement format_grammar, format_graph, format_rule and output_file_extension"
  | .unknown name known =>
    "Formatter '" ++ name ++ "' not found. Available formatters: " ++ Text.join ", " known
  | .failed f => f.message

/-- what a class says about itself: the first line of its text -/
def description (about : Option Text) : Text :=
  match Text.lines (Text.strip (about.getD [])) with
  | [] => "No description provided"
  | first :: _ => first

/-- a registered class as it is listed -/
structure FormatterInfo where
  name : Text
  extension : Text
  description : Text
  deriving DecidableEq, Repr

/-- a class as it is listed under a name. It is asked for its text first, then for a formatter with the standard options,
which answers the extension -/
def Maker.info {φ : Type} (name : Text) (c : Maker φ) : Except Failure FormatterInfo := do
  let about ← c.about
  let f ← c.make .standard
  return ⟨name, ← c.extension f, description about⟩

/-- formatter classes by name, in the order of registration -/
abbrev Registry (φ : Type) := List (Text × Maker φ)

namespace Registry

variable {φ : Type}

def empty : Registry φ := []

/-- register a candidate under a name. The candidate is asked for its name only if the name to register is taken, and for
its form only if it is no class with all operations -/
def register (r : Registry φ) (name : Text) (offered : Candidate φ) : Except RegistryError (Registry φ) :=
  match r.lookup name with
  | some _ =>
    match offered.name with
    | .ok own => .error (.taken name own)
    | .error f => .error (.failed f)
  | none =>
    match offered.maker? with
    | .ok (some c) => .ok (r ++ [(name, c)])
    | .ok none =>
      match offered.shown with
      | .ok shown => .error (.invalid shown)
      | .error f => .error (.failed f)
    | .error f => .error (.failed f)

def names (r : Registry φ) : List Text :=
  (r.map Prod.fst).mergeSort Text.precedes

/-- a formatter of the class registered under a name, made with the standard options unless there are others -/
def get (r : Registry φ) (name : Text) (options : Option Options) : Except RegistryError φ :=
  match r.lookup name with
  | some c => (c.make (options.getD .standard)).mapError .failed
  | none => .error (.unknown name r.names)

theorem get_eq {r : Registry φ} {name : Text} {c : Maker φ} (h : r.lookup name = some c) (options : Option Options) :
    r.get name options = (c.make (options.getD .standard)).mapError .failed := by
  rw [get, h]

/-- the registered classes in the order of their names -/
def sorted (r : Registry φ) : Registry φ :=
  r.names.filterMap fun name => (r.lookup name).map fun c => (name, c)

/-- all classes as they are listed; the first that fails ends the list -/
def describe (r : Registry φ) : Except Failure (List FormatterInfo) :=
  r.sorted.mapM fun (name, c) => c.info name

def builtin : List (Text × FormatterClass) :=
  [(Text.ofString "markdown", .markdown), (Text.ofString "text", .plainText), (Text.ofString "dot", .dot)]

/-- the registry that the program looks formatters up in -/
def standard : Registry Formatter :=
  builtin.map (Prod.map id FormatterClass.maker)

/-- another view of what stands behind the names is looked up by the same names -/
theorem lookup_map_id {α β : Type} (f : α → β) (l : List (Text × α)) (name : Text) :
    (l.map (Prod.map id f)).lookup name = (l.lookup name).map f := by
  induction l with
  | nil => rfl
  | cons p l ih =>
    rw [List.map_cons, List.lookup_cons, List.lookup_cons, ih, Prod.map_fst, id_eq]
    cases name == p.1 with
    | true => rfl
    | false => rfl

/-- a built-in class makes a formatter with all options -/
theorem get_standard {name : Text} {c : FormatterClass} (h : builtin.lookup name = some c) (options : Options) :
    standard.get name (some options) = .ok ⟨c, options⟩ := by
  rw [get_eq (c := c.maker) (by rw [standard, lookup_map_id, h, Option.map_some])]
  rfl

end Registry

end Rulebook
