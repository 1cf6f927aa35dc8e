/-
Values as data files hold them: truth values, numbers, texts, dates and times, lists, and tables, whose fields keep the
order in which they came. A table has each key once.
-/
import Rulebook.Data.Decimal
import Rulebook.Text.Basic

namespace Rulebook

inductive Moment where
  | date
  | time
  | dateTime
  deriving DecidableEq, Repr

inductive Value where
  | null
  | bool (b : Bool)
  | whole (n : Int)
  | decimal (d : Decimal)
  | text (t : Text)
  | moment (m : Moment)
  | list (items : List Value)
  | table (fields : List (Text × Value))

abbrev Table := List (Text × Value)

def Moment.className : Moment → Text
  | .date => "datetime.date"
  | .time => "datetime.time"
  | .dateTime => "datetime.datetime"

def Value.className : Value → Text
  | .null => "NoneType"
  | .bool _ => "bool"
  | .whole _ => "int"
  | .decimal _ => "float"
  | .text _ => "str"
  | .moment m => m.className
  | .list _ => "list"
  | .table _ => "dict"

end Rulebook
