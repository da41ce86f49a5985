/-!
# Colours of a sheet

A finding is set off by its tone: the background of its cells and the colour of its text. A palette
says which fill and which font colour belong to a tone. There are three palettes: the standard one,
and those that two of the audits bring along.
-/

namespace DesignAudit.Sheet

/-- What a colour says about a finding. -/
inductive Tone where
  | error
  | errorStrong
  | warning
  | success
  | info
  | muted
  | header
  | script
  | customFunction
  | fieldCalculation
  | layoutObject
  | other
  deriving DecidableEq, Repr

namespace Tone

def names : List (String × Tone) :=
  [("error", error), ("error_strong", errorStrong), ("warning", warning), ("success", success),
   ("info", info), ("muted", muted), ("header", header), ("category_script", script),
   ("category_custom_function", customFunction), ("category_field_calc", fieldCalculation),
   ("category_layout_object", layoutObject), ("category_other", other)]

def ofName? (name : String) : Option Tone := names.lookup name

end Tone

/-- The background of a cell. -/
inductive Fill where
  /-- No background. -/
  | plain
  /-- A background of one colour, given by its six hexadecimal digits. -/
  | solid (colour : String)
  deriving DecidableEq, Repr

/-- The font of a cell, as far as it is set. -/
structure Font where
  colour : Option String := none
  bold : Bool := false
  strike : Bool := false
  deriving DecidableEq, Repr

/-- The fills and font colours that go with the tones; `none` stands for a name that is no tone. -/
structure Palette where
  fill : Option Tone → Option Fill
  fontColour : Option Tone → Option String
  /-- Whether its fonts can be struck through. -/
  strikes : Bool

namespace Palette

def fillOf (p : Palette) (t : Tone) : Fill := (p.fill (some t)).getD .plain

def fontOf (p : Palette) (t : Tone) : Font := { colour := p.fontColour (some t) }

def boldOf (p : Palette) (t : Tone) : Font := { colour := p.fontColour (some t), bold := true }

def standard : Palette where
  fill t := t.map fun t => .solid <| match t with
    | .error => "FFEBEE"
    | .errorStrong => "FFCDD2"
    | .warning => "FFF9C4"
    | .success => "C8E6C9"
    | .info => "E3F2FD"
    | .muted => "F5F5F5"
    | .header => "2D3142"
    | .script => "B7E4C7"
    | .customFunction => "A9DEF9"
    | .fieldCalculation => "FFE066"
    | .layoutObject => "FFB4A2"
    | .other => "D3D3D3"
  fontColour t := t.map fun t => match t with
    | .error => "B71C1C"
    | .errorStrong => "B71C1C"
    | .warning => "F57C00"
    | .success => "2E7D32"
    | .info => "1976D2"
    | .muted => "888888"
    | .header => "FFFFFF"
    | _ => "000000"
  strikes := true

/-- The palette of the custom-function audit: three tones, and white and black for the rest. -/
def functions : Palette where
  fill t := some <| .solid <| match t with
    | some .warning => "FFFFCC"
    | some .success => "CCFFCC"
    | some .error => "FFCCCC"
    | _ => "FFFFFF"
  fontColour t := some <| match t with
    | some .warning => "CC6600"
    | some .success => "006600"
    | some .error => "FF0000"
    | _ => "000000"
  strikes := false

/-- The palette of the audit of unknown references: no background and black for what it does not
name. -/
def references : Palette where
  fill t := some <| match t with
    | some .script => .solid "E8F5E9"
    | some .customFunction => .solid "E3F2FD"
    | some .fieldCalculation => .solid "FFF3E0"
    | some .layoutObject => .solid "F3E5F5"
    | some .other => .solid "F5F5F5"
    | some .warning => .solid "FFF9C4"
    | some .error => .solid "FFEBEE"
    | _ => .plain
  fontColour t := some <| match t with
    | some .warning => "F57C00"
    | some .error => "D32F2F"
    | some .muted => "757575"
    | _ => "000000"
  strikes := false

end Palette

end DesignAudit.Sheet
