import DesignAudit.Sample.Template

/-!
# Tables, relationships, functions and value lists of a sample

Every table has the same fields. Each field has calculations that refer to other tables and to
functions, and one of the fields carries out a query.
-/

namespace DesignAudit.Sample

open Text

/-- The fields of every table. -/
def fieldNames : List String :=
  ["PrimaryKey", "CreatedBy", "ModifiedBy", "#comment", "val_c", "val_cache", "FieldA", "FieldB"]

/-- The field that carries out a query. -/
def queryField : String := "FieldA"

/-- The number of a field: the sum of the code points of its name. -/
def nameNumber (name : String) : Nat := (name.toList.map Char.toNat).foldr (· + ·) 0

/-- The calculation of the field that carries out a query. -/
def queryTemplate : String :=
  r#"ExecuteSQL("SELECT FieldA, SUM(amount), COUNT(DISTINCT x), AVG(y), MAX(z), MIN(w) FROM $table JOIN $other AS ot ON ot.FieldA = $table.FieldA WHERE FieldA = ? AND PrimaryKey &gt; 1 OR flag = 0 GROUP BY FieldA ORDER BY FieldA" ; "" ; "")"#

/-- The calculation of every other field. -/
def plainTemplate : String :=
  r#"$other::FieldA &amp; $function( Globals::gFlag ) &amp; &lt;&lt;FieldA&gt;&gt; &amp; get.value &amp; PlaceholderText &amp; &lt;Field id="1" table="$table" name="$field"/&gt;"#

/-- The first part of a field. -/
def fieldHeadTemplate : String := r#"<Field id="$id" name="$field" dataType="Text">  <Calculation>"#

/-- What follows the calculation of a field. -/
def fieldTailTemplate : String :=
  r#"</Calculation>  <AutoEnter><Calculation>$other::FieldA &amp;     $function(1)</Calculation></AutoEnter>  <Validation><Calculation>/* comment */ $table::$field     </Calculation></Validation>  <DisplayCalculation>    <Chunk type="FieldRef"><Field table="$other"       name="FieldA" id="2"/></Chunk>  </DisplayCalculation>  <Bounds top="5.0" left="6.0"/></Field>"#

/-- A base table without its own fields. -/
def tableHeadTemplate : String :=
  r#"<BaseTable id="$index" name="$table">  <FieldCatalog>    <Field id="77" name="CatalogField" table="$table"       dataType="Text"/>  </FieldCatalog>"#

def fields (values : List (String × String)) : String :=
  join "" (fieldNames.map fun name =>
    let values := ("field", name) :: ("id", toString (nameNumber name)) :: values
    fill values (fieldHeadTemplate ++ (if name == queryField then queryTemplate else plainTemplate) ++
      fieldTailTemplate))

/-- What the part of a sample at a place refers to. -/
def tableValues (s : Scale) (i : Nat) : List (String × String) :=
  [("index", toString i), ("table", pick s.tables i), ("other", pick s.tables (i + 1)),
   ("function", pick s.functions i), ("layout", pick s.layouts i)]

def baseTable (s : Scale) (i : Nat) : String :=
  let values := tableValues s i
  fill values tableHeadTemplate ++ fields values ++ "</BaseTable>"

def graphTemplate : String := r#"<TableOccurrence name="RG_$table" baseTable="$table"/>"#

/-- The occurrences of a table outside the graph. -/
def occurrenceTemplate : String :=
  r#"<Table name="$table" baseTable="$table"/>
<Table name="$table_TO" baseTable="$table"/>
<TableOccurrence name="z_$table" baseTable="$table"/>"#

def relationshipTemplate : String :=
  r#"<Relationship id="$index" name="Rel_$index">  <LeftTable name="$table"/><RightTable name="$other"/>  <FieldPair>    <Field table="$table" name="FieldA"/>    <Field table="$other" name="ghostfield"/>  </FieldPair>  <Layout name="$layout"/></Relationship>"#

def valueListTemplate : String :=
  r#"<ValueList id="$index" name="VL_$index">  <Field table="$table" name="FieldA"/>  <Field table="GhostTO" name="ghost"/>  <RelatedSet>    <PrimaryField table="$table" name="FieldA"/>    <DisplayField table="$table" name="FieldB"/>  </RelatedSet>  <Layout name="$layout"/>  <Calculation>CustFn_0(1)</Calculation>  <Script name="Script_0"/></ValueList>"#

def functionTemplate : String :=
  r#"<CustomFunction id="$index" name="$function">  <Calculation>$next( x ) &amp; UnknownFn( y ) &amp; If( 1 ; 2 ; 3 ) &amp; $table::FieldA &amp; ExecuteSQL("SELECT FieldA FROM $table"; ""; "")</Calculation></CustomFunction>"#

/-- A custom function, which calls the next one. -/
def customFunction (s : Scale) (i : Nat) : String :=
  fill [("index", toString i), ("function", pick s.functions i), ("next", pick s.functions (i + 1)),
    ("table", pick s.tables 0)] functionTemplate

end DesignAudit.Sample
