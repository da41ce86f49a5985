/-!
# Columns of plain text

Texts are filled up with spaces to a width, which counts characters. A text that is wider is left as
it is.
-/

namespace DesignAudit.Text

def filler (width : Nat) (s : String) : String :=
  String.ofList (List.replicate (width - s.length) ' ')

/-- A text at the left of its column. -/
def atLeft (width : Nat) (s : String) : String := s ++ filler width s

/-- A text at the right of its column. -/
def atRight (width : Nat) (s : String) : String := filler width s ++ s

end DesignAudit.Text
