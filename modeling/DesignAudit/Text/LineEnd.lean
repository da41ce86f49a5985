/-!
# Line ends

A carriage return ends a line, alone or together with the line feed after it. Where lines matter
they are all ended by a single line feed.
-/

namespace DesignAudit.Text

/-- Ends each line by a single line feed; `done` is what has been written so far, in reverse. -/
def unifiedFrom : List Char → List Char → List Char
  | done, [] => done.reverse
  | done, c :: rest =>
    if c == '\r' then
      if rest.head? == some '\n' then unifiedFrom done rest else unifiedFrom ('\n' :: done) rest
    else unifiedFrom (c :: done) rest

/-- Ends each line by a single line feed. -/
def unifyLineEnds (text : List Char) : List Char := unifiedFrom [] text

end DesignAudit.Text
