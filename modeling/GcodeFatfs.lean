import GcodeFatfs.Modal
import GcodeFatfs.Acceptance
import GcodeFatfs.Conversion
import GcodeFatfs.Words
import GcodeFatfs.Positioning
import GcodeFatfs.MountLed
import GcodeFatfs.FileProtocol
import GcodeFatfs.FaultReports
import GcodeFatfs.JobLog
import GcodeFatfs.ShellLedger
import GcodeFatfs.Listing
import GcodeFatfs.PathBound
import GcodeFatfs.Output
import GcodeFatfs.Toolpath
import GcodeFatfs.JobAlgebra
import GcodeFatfs.SessionRuns
import GcodeFatfs.Diagnostics
import GcodeFatfs.LogText
import GcodeFatfs.TreeReading
import GcodeFatfs.SharedShells
import GcodeFatfs.OneLine
