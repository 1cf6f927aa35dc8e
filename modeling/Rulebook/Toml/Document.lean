/-
TOML documents. A document is statements on lines of their own: a header in one pair of brackets declares a table, in
two pairs it adds a table to a list, and a key with a value fills the table of the header above. Blank lines and
comments say nothing.
-/
import Rulebook.Toml.Reading

namespace Rulebook.Toml

def tableHeader (d : Draft) (s : Text) : Reading Draft true s :=
  (takeMark '[' s).next fun _ inside _ =>
  (blanks inside).next fun _ named _ =>
  (key named).next fun k close _ =>
  (takeMark ']' close).next fun _ rest _ => accept (d.openTable k) rest

/-- a header that adds a table to a list -/
def itemHeader (d : Draft) (s : Text) : Reading Draft true s :=
  (takeMark '[' s).next fun _ opening _ =>
  (takeMark '[' opening).next fun _ inside _ =>
  (blanks inside).next fun _ named _ =>
  (key named).next fun k closing _ =>
  (takeMark ']' closing).next fun _ close _ =>
  (takeMark ']' close).next fun _ rest _ => accept (d.openItem k) rest

def assignment (d : Draft) (s : Text) : Reading Draft true s :=
  (keyEquals s).next fun k valued _ =>
  (value valued).next fun v rest _ => accept (d.assign k v) rest

def statement (d : Draft) (s : Text) : Reading Draft true s :=
  if Text.startsWith s "[[" then itemHeader d s
  else if Text.startsWith s "[" then tableHeader d s
  else assignment d s

def lineBreak (s : Text) : Reading Unit false s :=
  match s with
  | [] => .nothing () []
  | c :: rest => ((takeMark '\n' (c :: rest)).map fun _ => ()).loose

/-- what follows a statement: a comment perhaps, and the end of the line -/
def lineEnd (s : Text) : Reading Unit false s :=
  (blanks s).next fun _ rest _ =>
  (Reading.behindMark? (fun (c : CodePoint) => c = '#') comment rest).next fun _ close _ => lineBreak close

def statements (d : Draft) (s : Text) : Reading Draft false s :=
  (gaps s).next fun _ rest _ =>
  if rest.isEmpty then .nothing d rest
  else
    ((statement d rest).next fun d behind _ =>
      (lineEnd behind).next fun _ further _ => statements d further).loose
termination_by s.length

def ofText (t : Text) : Except Fault Table :=
  match statements .empty (joinLineEnds t) with
  | .error f => .error f
  | .ok step => .ok step.value.fields

end Rulebook.Toml
