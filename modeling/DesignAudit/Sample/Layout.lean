import DesignAudit.Sample.Template

/-!
# Layouts of a sample

A layout of a sample holds an object of every kind, with every place in which an object can refer to a
table, a field, a layout or a script. Some of the references lead nowhere.
-/

namespace DesignAudit.Sample

/-- A layout, with slots for what it refers to. -/
def layoutTemplate : String := r#"<Layout id="$id" name="$layout" table="$table">
  <Table name="$other"/>
  <OnRecordLoad>
    <Step name="Go to Layout"><Layout name="$next"/></Step>
    <Script id="$index" name="$script"/>
  </OnRecordLoad>
  <Object type="Field" name="fobj$index">
    <Bounds top="10.5" left="20.5"/>
    <Field table="$table" name="FieldA"/>
    <PlaceholderText>
      <Calculation>$table::FieldA &amp; Globals::gFlag</Calculation>
      <DisplayCalculation>
        <Chunk type="FieldRef"><Field table="$table" name="FieldA"/></Chunk>
      </DisplayCalculation>
    </PlaceholderText>
    <HideCondition><Calculation>ExecuteSQL("SELECT FieldA FROM $table JOIN $other WHERE FieldA = ?" ; "" ; "")</Calculation></HideCondition>
    <ConditionalFormatting>
      <Calculation>ExecuteSQL("SELECT FieldA FROM $table JOIN $other WHERE FieldA = ?" ; "" ; "")</Calculation>
      <Item><Condition><Calc>$table::FieldA</Calc></Condition></Item>
    </ConditionalFormatting>
    <Tooltip><Calculation>ExecuteSQL("SELECT FieldA FROM $table JOIN $other WHERE FieldA = ?" ; "" ; "") &amp; $table</Calculation></Tooltip>
    <Styles><CustomStyles><Name>StyleName</Name></CustomStyles></Styles>
  </Object>
  <Object type="Field">
    <Bounds top="1" left="2"/>
    <Field table="GhostTO" name="ghostfield"/>
  </Object>
  <Object type="Portal">
    <Bounds top="30.0" left="40.0"/>
    <Portal table="$other">
      <FilterCalc><Calculation>$other::FieldB &gt; 0</Calculation></FilterCalc>
    </Portal>
    <Object type="Field">
      <Bounds top="31" left="41"/><Field table="$other" name="FieldB"/>
    </Object>
  </Object>
  <Object type="Portal">
    <Bounds top="1" left="1"/><Portal table="GhostTO"/>
  </Object>
  <Object type="ExternalObject" name="wv$index">
    <Bounds top="50" left="60"/>
    <ExternalObj typeID="WEBV">
      <Calculation>ExecuteSQL("SELECT FieldA FROM $table JOIN $other WHERE FieldA = ?" ; "" ; "") &amp; $table::FieldA &amp; $table.FieldA</Calculation>
      <WebObj><URLCalc><Calculation>$table::FieldA &amp; $table.FieldA</Calculation></URLCalc></WebObj>
    </ExternalObj>
    <Script id="$object" name="$script"/>
  </Object>
  <Object type="ExternalObject">
    <Bounds top="1" left="1"/>
    <ExternalObj typeID="CHRT">
      <ChartSeries><Field table="$table" name="FieldA"/></ChartSeries>
      <Calculation>$table::FieldA</Calculation>
    </ExternalObj>
  </Object>
  <Object type="Button" name="btn$index">
    <Bounds top="70" left="80"/>
    <Step name="Go to Layout"><Layout name="$next"/></Step>
    <SingleStep>
      <Step name="Go to Layout"><Layout name="$next"/></Step>
      <Step name="Perform Script"><Script name="GhostScript"/></Step>
    </SingleStep>
    <Script name="$script"><Parameter>field:$table::FieldA;</Parameter></Script>
    <Script name="GhostScript"/>
    <Calculation>$table::FieldA &amp; $table.FieldA</Calculation>
    <ButtonObj><StepText>Perform Script [$script]</StepText>
      <Step id="1" name="Perform Script"><Script name="$script"/></Step>
    </ButtonObj>
  </Object>
  <Object type="Text">
    <Bounds top="90" left="100"/>
    <TextObj>
      <FieldList><Field table="$table" name="FieldA"/></FieldList>
      <CharacterStyleVector><Style><Data>&lt;&lt;FieldA&gt;&gt;</Data></Style></CharacterStyleVector>
    </TextObj>
    <PlaceholderText><Calculation>$table::FieldA</Calculation></PlaceholderText>
    <Misc><Calculation>ExecuteSQL("SELECT FieldA FROM $table JOIN $other WHERE FieldA = ?" ; "" ; "") &amp; $table</Calculation></Misc>
  </Object>
  <Object type="TabControl"><Bounds top="1" left="1"/></Object>
  <Object type="TabPanel" name="Tab$index">
    <TabControlObj><Calculation>$table::FieldA</Calculation></TabControlObj>
  </Object>
  <Object type="SlideControl"><Bounds top="1" left="1"/></Object>
  <Object type="SlidePanel" name="Slide$index">
    <SlideControlObj><Calculation>$table::FieldA</Calculation></SlideControlObj>
  </Object>
  <Object type="ButtonBar">
    <Bounds top="1" left="1"/>
    <ButtonBarObj><Segment><Calculation>$table::FieldA</Calculation></Segment></ButtonBarObj>
    <ButtonBarSegment><Script name="$script"/></ButtonBarSegment>
  </Object>
  <Object type="Popover" name="pop$index">
    <Bounds top="1" left="1"/>
    <PopoverObj><Calculation>$table::FieldA</Calculation></PopoverObj>
  </Object>
  <FieldObj>
    <Bounds top="5.0" left="6.0"/><Field table="$table" name="FieldA"/>
  </FieldObj>
  <PortalObj>
    <Bounds top="7.0" left="8.0"/>
    <TableAliasKey>$other</TableAliasKey>
    <Calculation>$table $other</Calculation>
  </PortalObj>
</Layout>"#

def layout (s : Scale) (i : Nat) : String :=
  fill [("id", toString (1000 + i)), ("index", toString i), ("object", toString (9000 + i)),
    ("layout", pick s.layouts i), ("next", pick s.layouts (i + 1)), ("script", pick s.scripts i),
    ("table", pick s.tables i), ("other", pick s.tables (i + 1))] layoutTemplate

end DesignAudit.Sample
