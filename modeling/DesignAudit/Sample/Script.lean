import DesignAudit.Sample.Template

/-!
# Scripts of a sample

A script of a sample has a step of every kind that refers to a script, a layout, a table or a field.
Some of the references lead nowhere.
-/

namespace DesignAudit.Sample

/-- A script, with slots for what it refers to. -/
def scriptTemplate : String := r#"<Script id="$id" name="$script">
  <StepList>
  <Step id="1" name="Perform Script" index="1">
    <Script id="$called" name="$next"/>
  </Step>
  <Step id="1" name="Perform Script" index="2" enable="False">
    <Script name="GhostScript"/>
  </Step>
  <Step id="6" name="Go to Layout" index="3">
    <Layout name="$layout" table="$table"/>
    <Parameter layout="$layout"/>
  </Step>
  <Step id="6" name="Go to Layout" index="4">
    <Layout name="GhostLayout"/>
  </Step>
  <Step id="7" name="Go to Related Record" index="5">
    <Layout name="$layout"/>
  </Step>
  <Step id="76" name="Set Field" index="6">
    <Field table="$table" name="FieldA"/>
    <Field table="GhostTO" name="ghostfield"/>
    <Calculation>$table::FieldA &amp; GhostTO::ghost &amp; $function(1) &amp; ExecuteSQL("SELECT FieldA FROM $table WHERE FieldA = ? ORDER BY FieldA" ; "" ; "")</Calculation>
    <Parameter>field:$table::FieldA;</Parameter>
  </Step>
  <Step id="147" name="Set Field By Name" index="7">
    <Calculation>$table::FieldA &amp; $other</Calculation>
  </Step>
  <Step id="141" name="Set Variable" index="8">
    <Calculation>ExecuteSQL("SELECT FieldA FROM $table WHERE FieldA = ? ORDER BY FieldA" ; "" ; "")</Calculation>
  </Step>
  <Step id="999" name="Execute SQL" index="9">
    <Calculation>ExecuteSQL("SELECT FieldA FROM $table WHERE FieldA = ? ORDER BY FieldA" ; "" ; "") $table</Calculation>
  </Step>
  <Step id="35" name="Import Records" index="10">
    <FieldMapping><Field table="$table" name="FieldA"/></FieldMapping>
  </Step>
  <Step id="175" name="Perform JavaScript in Web Viewer" index="11">
    <StepText>"$next" /* fmScript */</StepText>
  </Step>
  <Step id="8" name="New Window" index="12"><Layout name="$layout"/></Step>
  </StepList>
</Script>"#

def script (s : Scale) (i : Nat) : String :=
  let called := (i + 1) % s.scripts.length
  fill [("id", toString (2000 + i)), ("script", pick s.scripts i),
    ("called", toString (2000 + called)), ("next", pick s.scripts called),
    ("layout", pick s.layouts i), ("function", pick s.functions i),
    ("table", pick s.tables i), ("other", pick s.tables (i + 1))] scriptTemplate

end DesignAudit.Sample
