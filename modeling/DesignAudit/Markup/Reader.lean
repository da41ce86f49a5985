import DesignAudit.Encoding.Utf16
import DesignAudit.Markup.Character
import DesignAudit.Markup.Node

/-!
# Reading a document

The reader turns a text into a tree and never gives up on broken markup:

* every end tag closes the innermost open element, whatever its name, and what is still open at the
  end of the text is closed there; the end of the root ends the document;
* a `<` that begins no tag and a `&` that begins no reference are dropped, and references to unknown
  entities vanish;
* a start tag with a broken attribute list keeps the attributes read so far and has no content; what
  follows belongs to the parent.

White space between elements is dropped. It is kept where it is the whole content of an element,
after text, and in an element whose content begins with text.
-/

namespace DesignAudit.Markup

open Encoding
open Text (unifyLineEnds)

/-- How an element treats white space: nothing known yet, text was seen, or its `xml:space`
attribute decides. -/
inductive Spacing where
  | unknown
  | mixed
  | trimmed
  | preserved
  deriving DecidableEq

/-- An element whose end has not been read yet. -/
structure OpenElement where
  tag : String
  attributes : List (String × String)
  line : Nat
  /-- The text before the first child. -/
  text : Option (List Char) := none
  /-- The children so far, latest first. -/
  children : List Node := []
  /-- Whether text follows the latest child. -/
  tailed : Bool := false
  spacing : Spacing
  /-- The namespaces in force, innermost first; the empty prefix is the default namespace. -/
  namespaces : List (String × String)

namespace OpenElement

def close (e : OpenElement) : Node :=
  .mk .element e.tag e.attributes (e.text.map String.ofList) e.line e.children.reverse

def addChild (e : OpenElement) (n : Node) : OpenElement :=
  { e with children := n :: e.children, tailed := false }

def addText (e : OpenElement) (cs : List Char) : OpenElement :=
  if e.children.isEmpty then { e with text := some ((e.text.getD []) ++ cs) }
  else { e with tailed := true }

/-- Whether a run of white space, with `rest` after it, only separates elements. -/
def separates (e : OpenElement) (run rest : List Char) : Bool :=
  let lastIsText := if e.children.isEmpty then e.text.isSome else e.tailed
  e.spacing != .preserved && e.spacing != .mixed && run.all isSpace &&
  (rest.head? == some '<' || rest.head? == some '\r') &&
  !(e.children.isEmpty && e.text.isNone && ['<', '/'].isPrefixOf rest) &&
  !lastIsText && !e.text.isSome

/-- Adds a run of characters unless it only separates elements. A run that is kept although it
begins with white space makes the element one of mixed content; `always` does so in any case. -/
def addRun (e : OpenElement) (always : Bool) (run rest : List Char) : OpenElement :=
  if run.isEmpty then e
  else if (always || run.head?.any isSpace) then
    if e.separates run rest then e
    else
      let e := e.addText run
      if e.spacing == .unknown then { e with spacing := .mixed } else e
  else e.addText run

end OpenElement

/-- The number of line feeds in a piece of text. -/
def lineFeeds (cs : List Char) : Nat := cs.count '\n'

/-- Skips white space; gives the number of line feeds skipped. -/
def skipSpace (cs : List Char) : Nat × List Char :=
  (lineFeeds (cs.takeWhile isSpace), cs.dropWhile isSpace)

/-- The characters that the five predefined entities stand for. -/
def entity? (name : String) : Option Char :=
  match name with
  | "amp" => some '&'
  | "lt" => some '<'
  | "gt" => some '>'
  | "quot" => some '"'
  | "apos" => some '\''
  | _ => none

/-- The value of a digit of a character reference. -/
def referenceDigit? (hex : Bool) (c : Char) : Option Nat :=
  if c.isDigit then some (c.toNat - 48)
  else if hex && Nat.ble 97 c.toNat && Nat.ble c.toNat 102 then some (c.toNat - 87)
  else if hex && Nat.ble 65 c.toNat && Nat.ble c.toNat 70 then some (c.toNat - 55)
  else none

/-- The character with a code, if a document may hold it. -/
def legalCode? (n : Nat) : Option Char :=
  if n.isValidChar && isLegal (Char.ofNat n) && n != 0 then some (Char.ofNat n) else none

/-- The digits of a character reference up to its semicolon. A character that is no digit spoils
the reference and is left unread. -/
def referenceDigits (hex : Bool) (value : Nat) : List Char → Option Nat × List Char
  | [] => (none, [])
  | ';' :: rest => (some value, rest)
  | c :: rest =>
    match referenceDigit? hex c with
    | some d => referenceDigits hex (min (value * (if hex then 16 else 10) + d) 0x110000) rest
    | none => (none, c :: rest)

/-- Reads a reference, the text standing after its `&`. Gives what it stands for and what
follows. -/
def reference (cs : List Char) : List Char × List Char :=
  match cs with
  | '#' :: 'x' :: rest =>
    let (n, rest) := referenceDigits true 0 rest
    ((n.bind legalCode?).toList, rest)
  | '#' :: rest =>
    let (n, rest) := referenceDigits false 0 rest
    ((n.bind legalCode?).toList, rest)
  | _ =>
    let (name, rest) := takeName cs
    match rest with
    | ';' :: after => if name.isEmpty then ([], rest) else ((entity? (String.ofList name)).toList, after)
    | _ => ([], rest)

/-- A piece of the text that was read: what it stands for, the line feeds in it, and the text after
it. -/
structure Piece where
  value : List Char
  lines : Nat
  rest : List Char

/-- Reads an attribute value up to its closing quote. White space becomes spaces. A value that is
broken off by `<`, by an illegal character or by the end of the text is left unclosed. The fuel is
at least the number of characters. -/
def attributeValue (quote : Char) : Nat → List Char → Piece
  | 0, cs => ⟨[], 0, cs⟩
  | _ + 1, [] => ⟨[], 0, []⟩
  | fuel + 1, c :: rest =>
    if c == quote then ⟨[], 0, rest⟩
    else if c == '<' || !isLegal c then ⟨[], 0, c :: rest⟩
    else if c == '&' then
      let (value, rest) := reference rest
      let more := attributeValue quote fuel rest
      { more with value := value ++ more.value }
    else if c == '\r' && rest.head? == some '\n' then attributeValue quote fuel rest
    else
      let more := attributeValue quote fuel rest
      { more with
        value := (if isSpace c then ' ' else c) :: more.value
        lines := (if c == '\n' then 1 else 0) + more.lines }

/-- The attributes of a start tag as written, the line feeds among them, and what follows them. -/
structure WrittenTag where
  attributes : List (List Char × List Char)
  lines : Nat
  rest : List Char

/-- Reads the attribute list of a start tag, white space before it being skipped already. Reading
ends at `>` or `/>`, or where the list is broken. The fuel is at least the number of characters. -/
def attributeList : Nat → List Char → WrittenTag
  | 0, cs => ⟨[], 0, cs⟩
  | fuel + 1, cs =>
    if cs.isEmpty || ['>'].isPrefixOf cs || ['/', '>'].isPrefixOf cs then ⟨[], 0, cs⟩
    else
      let (name, afterName) := takeName cs
      if name.isEmpty then ⟨[], 0, cs⟩
      else
        let (n, afterName) := skipSpace afterName
        match afterName with
        | '=' :: afterSign =>
          let (m, afterSign) := skipSpace afterSign
          match afterSign with
          | quote :: body =>
            if quote == '"' || quote == '\'' then
              let v := attributeValue quote (fuel + 1) body
              -- Attributes are separated by white space; without it the list ends here.
              if v.rest.head?.any isSpace then
                let (k, next) := skipSpace v.rest
                let more := attributeList fuel next
                ⟨(name, v.value) :: more.attributes, n + m + v.lines + k + more.lines, more.rest⟩
              else ⟨[(name, v.value)], n + m + v.lines, v.rest⟩
            else ⟨[], n + m, afterSign⟩
          | [] => ⟨[], n + m, []⟩
        | _ => ⟨[], n, afterName⟩

/-- Splits a name into prefix and local part. -/
def splitName (name : List Char) : Option (List Char) × List Char :=
  match name.span (· != ':') with
  | (p, ':' :: l) => if p.isEmpty || l.isEmpty then (none, name) else (some p, l)
  | _ => (none, name)

def xmlNamespace : String := "http://www.w3.org/XML/1998/namespace"

/-- A name with its namespace in braces; a prefix that is not declared stays part of the name. -/
def qualify (namespaces : List (String × String)) (useDefault : Bool) (name : List Char) : String :=
  let inSpace (uri l : String) := "\x7b" ++ uri ++ "\x7d" ++ l
  match splitName name with
  | (none, l) =>
    match if useDefault then namespaces.lookup "" else none with
    | some uri => if uri.isEmpty then String.ofList l else inSpace uri (String.ofList l)
    | none => String.ofList l
  | (some p, l) =>
    if String.ofList p == "xml" then inSpace xmlNamespace (String.ofList l)
    else
      match namespaces.lookup (String.ofList p) with
      | some uri => inSpace uri (String.ofList l)
      | none => String.ofList name

/-- The prefix that an attribute declares, empty for the default namespace. -/
def declaredPrefix? (name : List Char) : Option String :=
  match splitName name with
  | (none, l) => if String.ofList l == "xmlns" then some "" else none
  | (some p, l) => if String.ofList p == "xmlns" then some (String.ofList l) else none

/-- Keeps the first of several attributes of one name. -/
def firstOfEach (attributes : List (String × String)) : List (String × String) :=
  attributes.foldl (fun kept a => if (kept.lookup a.1).isSome then kept else kept ++ [a]) []

/-- The element that a start tag opens. -/
def openElement (outer : Option OpenElement) (name : List Char)
    (written : List (List Char × List Char)) (line : Nat) : OpenElement :=
  let declared := written.filterMap fun (n, v) => (declaredPrefix? n).map (·, String.ofList v)
  let namespaces := declared ++ (outer.map OpenElement.namespaces).getD []
  let attributes := firstOfEach <| written.filterMap fun (n, v) =>
    if (declaredPrefix? n).isSome then none else some (qualify namespaces false n, String.ofList v)
  let inherited :=
    match outer.map OpenElement.spacing with
    | some .mixed => .unknown
    | some s => s
    | none => .unknown
  let spacing :=
    match attributes.lookup ("\x7b" ++ xmlNamespace ++ "\x7dspace") with
    | some "preserve" => .preserved
    | some "default" => .trimmed
    | _ => inherited
  { tag := qualify namespaces true name, attributes, line, spacing, namespaces }

/-- The reader's state: the number of characters of the document, the line reached, the text to
come, the open elements, innermost first, and the root once it is closed. -/
structure Reading where
  size : Nat
  line : Nat
  rest : List Char
  stack : List OpenElement := []
  root : Option Node := none

namespace Reading

/-- Elements may lie this deep in one another. -/
def depthLimit : Nat := 256

/-- Puts a finished node into the innermost open element, or makes it the root. -/
def place (r : Reading) (n : Node) : Reading :=
  match r.stack with
  | e :: outer => { r with stack := e.addChild n :: outer }
  | [] => { r with root := some n, rest := [] }

/-- Changes the innermost open element. -/
def modify (r : Reading) (f : OpenElement → OpenElement) : Reading :=
  match r.stack with
  | e :: outer => { r with stack := f e :: outer }
  | [] => r

/-- Goes on at `rest` after passing some line feeds. -/
def goTo (r : Reading) (lines : Nat) (rest : List Char) : Reading :=
  { r with line := r.line + lines, rest }

/-- Reads a start tag, the text standing after its `<`. -/
def startTag (r : Reading) : Reading :=
  let (name, afterName) := takeName r.rest
  if name.isEmpty then r
  else if depthLimit < r.stack.length then { r with rest := [] }
  else
    let (n, afterName) := skipSpace afterName
    let tag := attributeList (r.size + 1) afterName
    let line := r.line + n + tag.lines
    let e := openElement r.stack.head? name tag.attributes line
    match tag.rest with
    | '/' :: '>' :: rest => { r with line, rest }.place e.close
    | '>' :: rest => { r with line, rest, stack := e :: r.stack }
    | rest => { r with line, rest }.place e.close

/-- Reads an end tag, the text standing after its `</`. -/
def endTag (r : Reading) : Reading :=
  let (_, rest) := takeName r.rest
  let (n, rest) := skipSpace rest
  let r := r.goTo n (match rest with | '>' :: after => after | after => after)
  match r.stack with
  | e :: outer => { r with stack := outer }.place e.close
  | [] => r

/-- Reads a remark up to `stop`; a remark without end takes the rest of the text with it. -/
def remark (r : Reading) (kind : Kind) (label : String) (stop body : List Char) : Reading :=
  match splitAt? stop body with
  | none => { r with rest := [] }
  | some (content, rest) =>
    let r := r.goTo (lineFeeds content) rest
    let node := Node.mk kind label [] (some (String.ofList (unifyLineEnds content))) r.line []
    match r.stack with
    | [] => r
    | _ => r.place node

/-- Reads a processing instruction, the text standing after its `<?`. -/
def instruction (r : Reading) (body : List Char) : Reading :=
  let (name, rest) := takeName body
  if name.isEmpty then { r with rest := body }
  else
    let (n, rest) := skipSpace rest
    (r.goTo n rest).remark .instruction Node.instructionLabel ['?', '>'] rest

/-- Reads a section of literal text, the text standing after its opening mark. -/
def literal (r : Reading) (body : List Char) : Reading :=
  match splitAt? [']', ']', '>'] body with
  | none => { r with rest := [] }
  | some (content, rest) =>
    (r.goTo (lineFeeds content) rest).modify (·.addText (unifyLineEnds content))

/-- Plain characters that a run of ASCII text may hold. -/
def isPlain (c : Char) : Bool :=
  c == '\t' || c == '\n' || (Nat.ble 0x20 c.toNat && Nat.ble c.toNat 0x7F && c != '<' && c != '&')

/-- Splits off plain characters up to the mark `]]>`; the flag says whether the mark was met. -/
def takePlain : List Char → List Char × List Char × Bool
  | [] => ([], [], false)
  | c :: rest =>
    if [']', ']', '>'].isPrefixOf (c :: rest) then ([], c :: rest, true)
    else if isPlain c then
      let (run, rest, mark) := takePlain rest
      (c :: run, rest, mark)
    else ([], c :: rest, false)

/-- Reads a run of text in which other than ASCII characters occur: all up to the next markup or
illegal character, which is dropped. -/
def anyText (r : Reading) : Reading :=
  let run := r.rest.takeWhile fun c => c != '<' && c != '&' && isLegal c
  let rest := r.rest.dropWhile fun c => c != '<' && c != '&' && isLegal c
  let after := match rest with
    | c :: more => if c == '<' || c == '&' then rest else more
    | [] => []
  (r.goTo (lineFeeds run) after).modify (·.addRun true (unifyLineEnds run) rest)

/-- Reads a run of text. A misplaced `]]>` takes the plain characters before it with it. -/
def plainText (r : Reading) : Reading :=
  let (run, rest, mark) := takePlain r.rest
  let r := r.goTo (lineFeeds run) rest
  if mark then { r with rest := rest.drop 1 }
  else
    let r := r.modify (·.addRun false run rest)
    match rest with
    | '\r' :: '\n' :: more => { r with rest := '\n' :: more }
    | c :: _ => if c == '<' || c == '&' then r else r.anyText
    | [] => r

/-- Reads the next piece of an element's content. -/
def step (r : Reading) : Reading :=
  match r.rest with
  | [] => r
  | '<' :: '?' :: rest => r.instruction rest
  | '<' :: '/' :: rest => { r with rest }.endTag
  | '<' :: rest =>
    if "![CDATA[".toList.isPrefixOf rest then r.literal (rest.drop 8)
    else if "!--".toList.isPrefixOf rest then
      r.remark .comment Node.commentLabel ['-', '-', '>'] (rest.drop 3)
    else { r with rest }.startTag
  | '&' :: rest =>
    let (value, rest) := reference rest
    { r with rest }.modify fun e => if value.isEmpty then e else e.addText value
  | _ => r.plainText

/-- Closes what is open at the end of the text. -/
def finish (r : Reading) : Option Node :=
  match r.root with
  | some n => some n
  | none =>
    r.stack.foldl (fun inner e =>
      some (match inner with | some n => (e.addChild n).close | none => e.close)) none

/-- Reads the content of the open elements; every step takes a character at least. -/
def content : Nat → Reading → Reading
  | 0, r => r
  | fuel + 1, r => if r.rest.isEmpty || r.stack.isEmpty then r else content fuel r.step

end Reading

/-- Skips white space, comments and processing instructions before the root. The fuel is at least
the number of characters. -/
def skipProlog : Nat → Reading → Reading
  | 0, r => r
  | fuel + 1, r =>
    let (n, rest) := skipSpace r.rest
    let r := r.goTo n rest
    match r.rest with
    | '<' :: '?' :: rest => skipProlog fuel (r.instruction rest)
    | '<' :: '!' :: '-' :: '-' :: rest =>
      skipProlog fuel (r.remark .comment Node.commentLabel ['-', '-', '>'] rest)
    | '<' :: '!' :: rest =>
      if "DOCTYPE".toList.isPrefixOf rest then
        -- The internal subset, if there is one, may hold closing angle brackets of its own.
        let head := rest.takeWhile (· != '>')
        let stop := if head.contains '[' then [']'] else []
        match splitAt? (stop ++ ['>']) rest with
        | some (passed, after) => skipProlog fuel (r.goTo (lineFeeds passed) after)
        | none => { r with rest := [] }
      else r
    | _ => r

/-- The encoding that the declaration at the head of a document names, in small letters. -/
def declaredEncoding? (cs : List Char) : Option String :=
  if "<?xml".toList.isPrefixOf cs && (cs.drop 5).head?.any isSpace then
    ((splitAt? ['?', '>'] cs).map (·.1)).bind fun head =>
      (splitAt? "encoding".toList head).bind fun (_, rest) =>
        match rest.dropWhile isSpace with
        | '=' :: rest =>
          match rest.dropWhile isSpace with
          | quote :: rest => some (String.ofList ((rest.takeWhile (· != quote)).map Char.toLower))
          | [] => none
        | _ => none
  else none

/-- A text whose bytes are read one by one, each as the character of that code. -/
def bytewise (s : String) : List Char :=
  (toUtf8 s.toList).map fun b => Char.ofNat b.toNat

/-- The byte order of a document whose first two characters take two bytes each. -/
def pairedOrder? : List Char → Option ByteOrder
  | a :: b :: c :: d :: _ =>
    if [a, b, c, d] = ['<', '\x00', '?', '\x00'] then some .littleEndian
    else if [a, b, c, d] = ['\x00', '<', '\x00', '?'] then some .bigEndian
    else none
  | _ => none

/-- The characters of a document, by the encoding it declares: its bytes are taken as they are, one
by one, or, where the declaration contradicts them, not at all. Bytes that come in pairs from the
start are read in pairs, whatever the declaration says. -/
def decodeDeclared (s : String) : Option (List Char) :=
  match pairedOrder? s.toList, declaredEncoding? s.toList with
  | some o, _ => some (ofUtf16 o (toUtf8 s.toList))
  | none, none => some s.toList
  | none, some name =>
    if name ∈ ["utf-8", "utf8"] then some s.toList
    else if name ∈ ["iso-8859-1", "iso-latin-1", "iso latin 1", "latin1", "latin-1"] then
      some (bytewise s)
    else if name ∈ ["us-ascii", "ascii"] && s.toList.all (fun c => Nat.blt c.toNat 0x80) then
      some s.toList
    else none

/-- The text was empty. -/
inductive ReadFault where
  | emptyDocument
  deriving DecidableEq, Repr

def ReadFault.message : ReadFault → String
  | .emptyDocument => "Document is empty, line 1, column 1 (<string>, line 1)"

/-- Drops a byte-order mark. -/
def dropMark : List Char → List Char
  | c :: rest => if c.toNat == 0xFEFF then rest else c :: rest
  | [] => []

/-- Reads a document. There is no root where no element begins after the prolog. -/
def read (s : String) : Except ReadFault (Option Node) :=
  if s.isEmpty then .error .emptyDocument
  else
    match decodeDeclared s with
    | none => .ok none
    | some cs =>
      let fuel := cs.length + 1
      let start := skipProlog fuel { size := cs.length, line := 1, rest := dropMark cs }
      match start.rest with
      | '<' :: rest =>
        let opened := Reading.startTag { start with rest }
        .ok (Reading.content fuel opened).finish
      | _ => .ok none

end DesignAudit.Markup
