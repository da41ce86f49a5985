import DesignAudit.Occurrence.Audit
import DesignAudit.Proofs.Catalog.Tables
import DesignAudit.Proofs.FieldUse.Report
import DesignAudit.Proofs.Markup.Reader
import DesignAudit.Query.Schema

/-!
# The maps from occurrences to base tables

Four audits look up the base table of an occurrence, each in its own map. The catalogue and the audit
of occurrences read relationship graphs once more at the end; the audits of queries and of fields do
not. `occurrence_maps_agree` says how far the maps are the same.
-/

namespace DesignAudit.Occurrence

open Markup Catalog

/-- Without a catalogue the audit works with the occurrences that the catalogue of the document has. -/
theorem prepare_none {raw : String} {n : Node} (hread : read raw = .ok (some n)) :
    prepare raw none = .ok ((build (Site.root n)).occurrences, Site.root n) := by
  have hopen : openDocument "findall" raw = .ok (Site.root n) := openDocument_of_read hread "findall"
  simp only [prepare, hopen]
  rfl

/-- **How far the maps agree.** The audit of occurrences makes the map of the catalogue, so it finds the
same with the catalogue as without it. The audits of queries and of fields have one map. All maps
have the same names, and they give a name the same base table unless two table occurrences declare it
for different base tables and one of these stands in a relationship graph. -/
theorem occurrence_maps_agree {raw : String} {n : Node} (hread : read raw = .ok (some n)) :
    prepare raw none = .ok ((build (Site.root n)).occurrences, Site.root n) ∧
    audit raw none = audit raw (some ⟨(build (Site.root n)).occurrences, some n⟩) ∧
    (Query.Schema.ofRoot (Site.root n)).occurrences =
      (FieldUse.scopeAt (Site.root n)).occurrences ∧
    (build (Site.root n)).occurrences.names =
      (Query.Schema.ofRoot (Site.root n)).occurrences.names ∧
    ∀ name, ¬ Contested (Site.root n) name →
      (build (Site.root n)).occurrences.get? name =
        (Query.Schema.ofRoot (Site.root n)).occurrences.get? name := by
  have hprepare := prepare_none hread
  refine ⟨hprepare, ?_, rfl, names_occurrences (Site.root n), ?_⟩
  · have hgiven : prepare raw (some ⟨(build (Site.root n)).occurrences, some n⟩) =
        .ok ((build (Site.root n)).occurrences, Site.root n) := rfl
    rw [audit, audit, hprepare, hgiven]
  · intro name hname
    exact get?_occurrences_of_not_contested hname

/-- A document that declares `B` for one base table in a graph and for another one after it. -/
def contestedReport : String :=
  "<F><Table name='A' baseTable='S'/><RelationshipGraph><TableOccurrence name='A' baseTable='T'/>" ++
  "<TableOccurrence name='B' baseTable='T'/></RelationshipGraph>" ++
  "<TableOccurrence name='B' baseTable='U'/></F>"

def contestedTree : Node :=
  plain "F" []
    [plain "Table" [("name", "A"), ("baseTable", "S")] [],
     plain "RelationshipGraph" []
      [plain "TableOccurrence" [("name", "A"), ("baseTable", "T")] [],
       plain "TableOccurrence" [("name", "B"), ("baseTable", "T")] []],
     plain "TableOccurrence" [("name", "B"), ("baseTable", "U")] []]

set_option maxRecDepth 20000 in
theorem read_contested : read contestedReport = .ok (some contestedTree) :=
  (read_eq_of_toList (toList_three _ _ _) (by decide) (by rfl) (by rfl)).trans (by rfl)

/-- The maps agree on `A`, which is not contested, and differ on `B`, which is. -/
theorem contested_maps :
    audit contestedReport none =
      audit contestedReport (some ⟨(build (Site.root contestedTree)).occurrences,
        some contestedTree⟩) ∧
    (build (Site.root contestedTree)).occurrences.names = ["A", "B"] ∧
    (build (Site.root contestedTree)).occurrences.get? "A" = some "T" ∧
    (Query.Schema.ofRoot (Site.root contestedTree)).occurrences.get? "A" = some "T" ∧
    Contested (Site.root contestedTree) "B" ∧
    (build (Site.root contestedTree)).occurrences.get? "B" = some "T" ∧
    (Query.Schema.ofRoot (Site.root contestedTree)).occurrences.get? "B" = some "U" := by
  obtain ⟨-, haudit, -, hnames, hagree⟩ := occurrence_maps_agree read_contested
  have hfree : ¬ Contested (Site.root contestedTree) "A" := by decide +kernel
  have hschema : (Query.Schema.ofRoot (Site.root contestedTree)).occurrences.get? "A" =
      some "T" := by decide +kernel
  refine ⟨haudit, ?_, (hagree "A" hfree).trans hschema, hschema, by decide +kernel,
    by decide +kernel, by decide +kernel⟩
  rw [hnames]
  decide +kernel

end DesignAudit.Occurrence
