import DesignAudit.Data.Reading
import DesignAudit.Text.Quoted

/-!
# Data from outside

A measurement reads data that others have written. What does not have the form that is asked for is
trouble, and trouble has a kind and a message.
-/

namespace DesignAudit.Measure

open Data Number Text

/-- What goes wrong with data from outside. -/
inductive Trouble where
  | unreadable (fault : ReadFault) (text : String)
  /-- Something was asked of a value that only a record has. -/
  | noRecord (kind request : String)
  | notReal (s : String)
  | noNumber (kind : String)
  | notStarted (reason : String)

def Trouble.kind : Trouble → String
  | unreadable _ _ => "JSONDecodeError"
  | noRecord _ _ => "AttributeError"
  | notReal _ => "ValueError"
  | noNumber _ => "TypeError"
  | notStarted _ => "SubprocessError"

def Trouble.message : Trouble → String
  | unreadable fault text => fault.message text
  | noRecord kind request =>
    let kind := quoted kind
    let request := quoted request
    s!"{kind} object has no attribute {request}"
  | notReal s => "could not convert string to float: " ++ quoted s
  | noNumber kind =>
    "float() argument must be a string or a real number, not " ++ quoted kind
  | notStarted reason => reason

def kindName : Value → String
  | .null => "NoneType"
  | .truth _ => "bool"
  | .whole _ => "int"
  | .real _ => "float"
  | .text _ => "str"
  | .list _ => "list"
  | .record _ => "dict"

def readData (text : String) : Except Trouble Value :=
  (Value.read text).mapError (.unreadable · text)

/-- The member of a record, or nothing if it has none of that name. -/
def member (v : Value) (name : String) : Except Trouble Value :=
  match v with
  | .record ms => .ok ((ms.lookup name).getD .null)
  | _ => .error (.noRecord (kindName v) "get")

/-- The members of a record. What counts as nothing has none. -/
def membersOf (v : Value) (request : String) : Except Trouble (List (String × Value)) :=
  match v with
  | .record ms => .ok ms
  | _ => if v.isNothing then .ok [] else .error (.noRecord (kindName v) request)

/-- A record, which is empty in place of what counts as nothing. -/
def orEmpty (v : Value) : Value := if v.isNothing then .record [] else v

/-- The items of a list, and none of any other value. -/
def itemsOf : Value → List Value
  | .list xs => xs
  | _ => []

/-- The number of members of a record or items of a list. -/
def countOf : Value → Nat
  | .list xs => xs.length
  | .record ms => ms.length
  | _ => 0

/-- The number that a value is or that a text tells. -/
def realOf : Value → Except Trouble Binary
  | .whole n => .ok (.ofInt n)
  | .real b => .ok b
  | .truth b => .ok (.ofInt (if b then 1 else 0))
  | .text s =>
    match real? s with
    | some b => .ok b
    | none => .error (.notReal s)
  | v => .error (.noNumber (kindName v))

/-- The number that a value is, and zero for any other value. -/
def numberOf : Value → Binary
  | .whole n => .ofInt n
  | .real b => b
  | _ => .zero

/-- The whole number that a value is, and zero for any other value. -/
def wholeOf : Value → Int
  | .whole n => n
  | .real (.finite s m e) => Binary.truncate s m e
  | _ => 0

/-- The text that a value is, and the empty one for any other value. -/
def textOf (v : Value) : String := v.text?.getD ""

end DesignAudit.Measure
