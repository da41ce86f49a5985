/-!
# The tree of a document

A document is a tree of nodes. An element has a name, attributes in the order in which they are
written, the text before its first child, and children; a remark (a comment or a processing
instruction) has its text only. A node knows the line on which its start tag or remark ends.

A `Site` is a node together with the elements around it, so that the searches of this library can
look downwards (all that lies below, in document order) and upwards (what encloses a place).
-/

namespace DesignAudit.Markup

inductive Kind where
  | element
  | comment
  | instruction
  deriving DecidableEq, Repr

/-- A node of a document. For a remark the name is the label it is shown with, which no element
bears. -/
inductive Node where
  | mk (kind : Kind) (tag : String) (attributes : List (String × String)) (text : Option String)
      (line : Nat) (children : List Node)
  deriving Repr

namespace Node

/-- Element, comment or instruction. -/
def kind : Node → Kind
  | mk k _ _ _ _ _ => k

/-- The name of an element, or the label of a remark. -/
def tag : Node → String
  | mk _ t _ _ _ _ => t

/-- The attributes, in the order written. -/
def attributes : Node → List (String × String)
  | mk _ _ a _ _ _ => a

/-- The text before the first child. -/
def text : Node → Option String
  | mk _ _ _ t _ _ => t

/-- The line on which the start tag ends. -/
def line : Node → Nat
  | mk _ _ _ _ l _ => l

def children : Node → List Node
  | mk _ _ _ _ _ c => c

def attr? (n : Node) (key : String) : Option String := n.attributes.lookup key

/-- The value of an attribute, or a default. -/
def attrD (n : Node) (key default : String) : String := (n.attr? key).getD default

/-- The value of an attribute, empty when it is missing. -/
def attr (n : Node) (key : String) : String := n.attrD key ""

/-- The value of an attribute that is present and not empty. -/
def named? (n : Node) (key : String) : Option String := (n.attr? key).filter (· ≠ "")

/-- The text before the first child, if there is any. -/
def written? (n : Node) : Option String := n.text.filter (· ≠ "")

def commentLabel : String := "<cyfunction Comment>"

/-- The label a processing instruction is shown with. -/
def instructionLabel : String := "<cyfunction ProcessingInstruction>"

end Node

/-- A node with the nodes around it. -/
structure Site where
  node : Node
  /-- The enclosing elements, innermost first. -/
  above : List Node
  /-- The position among its siblings, that of its parent, and so on; it tells apart equal nodes. -/
  address : List Nat

mutual

/-- A node and all below it, in document order. -/
def sitesOf (above : List Node) (address : List Nat) : Node → List Site
  | .mk kind tag attributes text line children =>
    let n := Node.mk kind tag attributes text line children
    ⟨n, above, address⟩ :: sitesIn (n :: above) address 0 children

/-- The nodes of a list and all below them, in document order; the first is at position `i`. -/
def sitesIn (above : List Node) (address : List Nat) (i : Nat) : List Node → List Site
  | [] => []
  | n :: rest => sitesOf above (i :: address) n ++ sitesIn above address (i + 1) rest

end

namespace Site

def root (n : Node) : Site := ⟨n, [], []⟩

def tag (s : Site) : String := s.node.tag

/-- Everything below a node, in document order. -/
def below (s : Site) : List Site :=
  sitesIn (s.node :: s.above) s.address 0 s.node.children

/-- The elements of a name below a node, in document order. -/
def all (s : Site) (name : String) : List Site := s.below.filter (·.tag == name)

/-- The first element of a name below a node. -/
def first? (s : Site) (name : String) : Option Site := s.below.find? (·.tag == name)

/-- Whether an element of a name lies below a node. -/
def holds (s : Site) (name : String) : Bool := s.below.any (·.tag == name)

/-- The elements below a node that have a name and an attribute of a given value. -/
def allWith (s : Site) (name key value : String) : List Site :=
  s.below.filter fun t => t.tag == name && t.node.attr? key == some value

/-- The first element below a node that has a name and an attribute of a given value. -/
def firstWith? (s : Site) (name key value : String) : Option Site :=
  s.below.find? fun t => t.tag == name && t.node.attr? key == some value

/-- The children of a node, in order. -/
def children (s : Site) : List Site :=
  s.node.children.zipIdx.map fun (n, i) => ⟨n, s.node :: s.above, i :: s.address⟩

def childrenNamed (s : Site) (name : String) : List Site := s.children.filter (·.tag == name)

/-- What is reached by going down through children of the given names. -/
def down (s : Site) : List String → List Site
  | [] => [s]
  | name :: names => (s.childrenNamed name).flatMap (·.down names)

/-- Elements of a name below a node, then children of the further names. -/
def allPath (s : Site) (name : String) (names : List String) : List Site :=
  (s.all name).flatMap (·.down names)

def firstPath? (s : Site) (name : String) (names : List String) : Option Site :=
  (s.allPath name names).head?

/-- The enclosing element. -/
def parent? (s : Site) : Option Node := s.above.head?

/-- The name of the enclosing element. -/
def parentTag? (s : Site) : Option String := s.parent?.map Node.tag

/-- The enclosing node as a site. -/
def up? (s : Site) : Option Site :=
  match s.above, s.address with
  | n :: above, _ :: address => some ⟨n, above, address⟩
  | n :: above, [] => some ⟨n, above, []⟩
  | [], _ => none

/-- The nodes around a place, innermost first, by the enclosing nodes and the address. -/
def around : List Node → List Nat → List Site
  | [], _ => []
  | n :: above, address => ⟨n, above, address.tail⟩ :: around above address.tail

/-- A node and the nodes around it, innermost first. -/
def outward (s : Site) : List Site := s :: around s.above s.address

/-- The elements of a name below each element of another name. One that lies below several of these
is repeated for each of them. -/
def allBelow (s : Site) (outer inner : String) : List Site :=
  (s.all outer).flatMap (·.all inner)

end Site

end DesignAudit.Markup
