/-!
# Numbers with grouped digits

The digits of a number in groups of three, divided by commas.
-/

namespace DesignAudit.Number

/-- Puts a comma after each third digit; the digits come last one first. -/
def groupDigits : List Char → List Char
  | a :: b :: c :: d :: rest => a :: b :: c :: ',' :: groupDigits (d :: rest)
  | ds => ds

def grouped (n : Nat) : String :=
  String.ofList (groupDigits (Nat.toDigits 10 n).reverse).reverse

end DesignAudit.Number
