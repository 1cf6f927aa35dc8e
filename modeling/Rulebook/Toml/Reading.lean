/-
Keys and values of TOML. A key is one or more names with points between them. A list may break lines, hold comments and
end in a comma; a table in braces stands on one line and does not end in a comma, and its keys with points fill tables
inside it.
-/
import Rulebook.Toml.Moment
import Rulebook.Toml.Number
import Rulebook.Toml.Table

namespace Rulebook.Toml

def name (s : Text) : Reading Text true s :=
  match s with
  | [] => refuse
  | c :: rest =>
    if isBare c then ((takeWhile isBare rest).map (c :: ·)).behind else quotedLine (c :: rest)

/-- one name of a key and the blanks behind it -/
def spacedName (s : Text) : Reading Text true s :=
  (name s).next fun n rest _ => (blanks rest).map fun _ => n

def key (s : Text) : Reading Key true s :=
  (spacedName s).next fun first rest _ =>
  (behindMarks '.' (fun r => (blanks r).next fun _ named _ => spacedName named) rest).map (first :: ·)

def keyEquals (s : Text) : Reading Key true s :=
  (key s).next fun k marked _ =>
  (takeMark '=' marked).next fun _ rest _ =>
  (blanks rest).map fun _ => k

/-- a value that has been read up to `rest` -/
def upTo {α : Type} (rest : Text) (r : Except Fault α) (s : Text) : Reading α true s :=
  match r with
  | .error f => .error f
  | .ok a => if h : rest.length < s.length then .ok ⟨a, rest, h⟩ else refuse

/-- a truth value, a date, a time or a number -/
def scalar (s : Text) : Reading Value true s :=
  match Text.after? "true" s, Text.after? "false" s with
  | some rest, _ => upTo rest (.ok (.bool true)) s
  | _, some rest => upTo rest (.ok (.bool false)) s
  | none, none =>
    match (moment? s).or (number? s) with
    | some (r, rest) => upTo rest r s
    | none => refuse

mutual

def value (s : Text) : Reading Value true s :=
  match s with
  | [] => refuse
  | c :: rest =>
    if isQuote c then (quoted (c :: rest)).map .text
    else if c = '[' then
      .behind <|
      (gaps rest).next fun _ inside _ =>
      (items inside).map .list
    else if c = '\x7b' then
      .behind <|
      (blanks rest).next fun _ inside _ =>
      if inside.head? = some '\x7d' then (takeMark '\x7d' inside).map fun _ => .table []
      else (fields .empty inside).map .table
    else scalar (c :: rest)
termination_by (s.length, 0)

/-- the items of a list up to its closing bracket -/
def items (s : Text) : Reading (List Value) true s :=
  if s.head? = some ']' then (takeMark ']' s).map fun _ => []
  else
    (value s).next fun v behind _ =>
    (gaps behind).next fun _ marked _ =>
    (take marked).next fun mark more _ =>
    if mark = ']' then .nothing [v] more
    else if mark = ',' then ((gaps more).next fun _ further _ => (items further).map (v :: ·)).loose
    else refuse
termination_by (s.length, 1)

/-- the fields of a table up to its closing brace, behind those already read -/
def fields (b : Braced) (s : Text) : Reading Table true s :=
  (keyEquals s).next fun k valued _ =>
  (value valued).next fun v filled _ =>
  (accept (b.assign k v) filled).next fun b behind _ =>
  (blanks behind).next fun _ marked _ =>
  (take marked).next fun mark more _ =>
  if mark = '\x7d' then .nothing b.fields more
  else if mark = ',' then ((blanks more).next fun _ further _ => fields b further).loose
  else refuse
termination_by (s.length, 1)

end

end Rulebook.Toml
