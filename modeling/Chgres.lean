import Chgres.Save.Clearing
import Chgres.Save.BuffersFit
import Chgres.Save.CnfContents
import Chgres.Save.Desk
import Chgres.Save.Fvdi
import Chgres.Save.FvdiContents
import Chgres.Save.LastSave
import Chgres.Save.Outcomes
import Chgres.Dialog.Controls
import Chgres.Dialog.Popup
import Chgres.Dialog.RemoveMode
import Chgres.Dialog.SessionLists
import Chgres.Foundation.Hex
import Chgres.Modes.GdosContents
import Chgres.Modes.NvdivgaRecords
import Chgres.Modes.NvdivgaRoundTrip
import Chgres.Modes.NvdivgaWalk
import Chgres.Modes.Ownership
import Chgres.Save.DeskContents
import Chgres.Utils.FindRemove
import Chgres.Dialog.Depths
import Chgres.Dialog.KeptModes
import Chgres.Foundation.Rearranged
import Chgres.Libcmini.Qsort
import Chgres.Libcmini.QsortSorts
import Chgres.Program.Restart
import Chgres.Program.Run
import Chgres.Foundation.Ring
import Chgres.Libcmini.Chunks
import Chgres.Libcmini.FreeSteps
import Chgres.Libcmini.HeapCalls
import Chgres.Libcmini.HeapFrees
import Chgres.Libcmini.HeapRuns
import Chgres.Foundation.Numerals
import Chgres.Foundation.Printf
import Chgres.Libcmini.Doprnt
import Chgres.Libcmini.DoprntPrints
import Chgres.Program.Printed
import Chgres.Dialog.InfoFields
