import DesignAudit.Number.Decimal
import DesignAudit.Register

/-!
# Data values

Values of the data that is exchanged and kept in files: nothing, truth values, numbers, texts, lists
and records. A record keeps its members in order.
-/

namespace DesignAudit.Data

open Number

inductive Value where
  | null
  | truth (b : Bool)
  | whole (n : Int)
  | real (b : Binary)
  | text (s : String)
  | list (xs : List Value)
  | record (members : List (String × Value))
  deriving Inhabited

namespace Value

/-- The members of a record, and none of any other value. -/
def members : Value → List (String × Value)
  | record ms => ms
  | _ => []

def member? (v : Value) (name : String) : Option Value := v.members.lookup name

def text? : Value → Option String
  | text s => some s
  | _ => none

def isRecord : Value → Bool
  | record _ => true
  | _ => false

def isNothing : Value → Bool
  | null => true
  | truth b => !b
  | whole n => n == 0
  | real b => b.eq .zero
  | text s => s == ""
  | list xs => xs.isEmpty
  | record ms => ms.isEmpty

end Value

end DesignAudit.Data
