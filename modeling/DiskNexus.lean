import DiskNexus.Bmr.Verbatim
import DiskNexus.DiskImage.Geometry
import DiskNexus.DiskLayout.Options
import DiskNexus.ExportImport.Collect
import DiskNexus.FileMode.Reader
import DiskNexus.Forget.Suspended
import DiskNexus.Index.CaptureExact
import DiskNexus.Index.CloseFails
import DiskNexus.Index.DeltaExact
import DiskNexus.Index.RebuildFinds
import DiskNexus.Manifest.Alloc
import DiskNexus.Manifest.Ranged
import DiskNexus.Pipeline.RoundTrip
import DiskNexus.Pipeline.Suspect
import DiskNexus.Prune.RecoverFails
import DiskNexus.Restore.Verify
import DiskNexus.Restore.VolumeFiles
import DiskNexus.Retention.Cadence
import DiskNexus.VolumeFs.ExtentTree
