import DesignAudit.Sample.Trial
import DesignAudit.Main
import DesignAudit.Proofs.Script.Calls
import DesignAudit.Proofs.Occurrence.Maps
import DesignAudit.Proofs.FieldUse.Agreement
import DesignAudit.Proofs.Script.Folder
import DesignAudit.Proofs.Run.Encodings
import DesignAudit.Proofs.Run.Styling
import DesignAudit.Proofs.FieldUse.Monotone
import DesignAudit.Proofs.Script.Conservation
import DesignAudit.Proofs.Normal.References
import DesignAudit.Proofs.FieldUse.Usage
import DesignAudit.Proofs.Query.Items
import DesignAudit.Proofs.Layout.Rows
import DesignAudit.Proofs.Query.Columns
import DesignAudit.Proofs.Normal.Leftover
import DesignAudit.Proofs.Function.Recognition
import DesignAudit.Proofs.Dangling.Remarks
import DesignAudit.Proofs.Occurrence.History
import DesignAudit.Proofs.Script.Tracing
import DesignAudit.Proofs.Run.Arrangement
import DesignAudit.Proofs.Measure.Stopping
