import DesignAudit.Data.Token

/-!
# Reading a data text

Tokens are read one after the other, with the lists and records that are not yet closed kept in a
stack, innermost first. What is looked for next decides whether a token fits, and which fault it is
if it does not.
-/

namespace DesignAudit.Data

/-- A list or record that is not yet closed. -/
inductive Pending where
  /-- The items so far, last first. -/
  | list (items : List Value)
  /-- The members so far, and the name whose value is being read. -/
  | record (members : Register Value) (name : String)

/-- What is looked for next. -/
inductive Awaited where
  | value
  | itemOrEnd
  | name
  | nameOrEnd
  | colon
  | separator

/-- The fault of a token, or of an end, that does not fit. -/
def Awaited.wrong : Awaited → Wrong
  | value | itemOrEnd => .value
  | name | nameOrEnd => .name
  | colon => .colon
  | separator => .comma

/-- How far a text is read. -/
inductive Progress where
  | inside (pending : List Pending) (awaited : Awaited)
  | done (v : Value)

/-- Puts a value that is complete where it belongs. -/
def Progress.enter (v : Value) : List Pending → Progress
  | [] => .done v
  | .list items :: outer => .inside (.list (v :: items) :: outer) .separator
  | .record members name :: outer => .inside (.record (members.insert name v) name :: outer) .separator

def Progress.value (pending : List Pending) (place : Nat) : Token → Except ReadFault Progress
  | .openList => .ok (.inside (.list [] :: pending) .itemOrEnd)
  | .openRecord => .ok (.inside (.record .empty "" :: pending) .nameOrEnd)
  | .text s => do return .enter (.text (← s)) pending
  | .plain v => .ok (.enter v pending)
  | _ => .error ⟨.value, place⟩

def Progress.step (p : Progress) (token : Nat × Token) : Except ReadFault Progress :=
  let (place, t) := token
  match p with
  | .done _ => .error ⟨.more, place⟩
  | .inside pending awaited =>
    match awaited, pending, t with
    | .itemOrEnd, .list _ :: outer, .closeList => .ok (.enter (.list []) outer)
    | .nameOrEnd, .record _ _ :: outer, .closeRecord => .ok (.enter (.record []) outer)
    | .separator, .list items :: outer, .closeList => .ok (.enter (.list items.reverse) outer)
    | .separator, .record ms _ :: outer, .closeRecord => .ok (.enter (.record ms.entries) outer)
    | .separator, .list _ :: _, .comma => .ok (.inside pending .value)
    | .separator, .record _ _ :: _, .comma => .ok (.inside pending .name)
    | .colon, _, .colon => .ok (.inside pending .value)
    | .name, .record ms _ :: outer, .text s => do return .inside (.record ms (← s) :: outer) .colon
    | .nameOrEnd, .record ms _ :: outer, .text s => do
      return .inside (.record ms (← s) :: outer) .colon
    | .value, _, t => Progress.value pending place t
    | .itemOrEnd, _, t => Progress.value pending place t
    | awaited, _, _ => .error ⟨awaited.wrong, place⟩

/-- The value that is read when the text is over. -/
def Progress.finish (length : Nat) : Progress → Except ReadFault Value
  | .done v => .ok v
  | .inside _ awaited => .error ⟨awaited.wrong, length⟩

def Value.read (text : String) : Except ReadFault Value := do
  let cs := text.toList
  if cs.head? == some (Char.ofNat 0xFEFF) then throw ⟨.mark, 0⟩
  let p ← (tokens cs).foldlM Progress.step (.inside [] .value)
  p.finish cs.length

end DesignAudit.Data
