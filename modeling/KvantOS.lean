import KvantOS.Block.Leases
import KvantOS.Boot.Direct
import KvantOS.Boot.KernelImage
import KvantOS.Calculator.Command
import KvantOS.Compiler.Inclusion
import KvantOS.Compiler.Structs
import KvantOS.Display.Damage
import KvantOS.Display.Drawing
import KvantOS.Display.Symmetry
import KvantOS.Editor.Carets
import KvantOS.Editor.Represented
import KvantOS.Fat.Freeing
import KvantOS.Fat.Mount
import KvantOS.FileManager.Confirmed
import KvantOS.Heap.Arena
import KvantOS.Heap.Checks
import KvantOS.Keyboard.Tracking
import KvantOS.Kvfs.Atomicity
import KvantOS.Kvfs.Finding
import KvantOS.Kvfs.ToolAdding
import KvantOS.Memory.FrameRuns
import KvantOS.Memory.WriteCombining
import KvantOS.Ntfs.Directories
import KvantOS.Ntfs.Paths
import KvantOS.Ntfs.Records
import KvantOS.Ntfs.Slicing
import KvantOS.PageTables.Runs
import KvantOS.Partition.Mbr
import KvantOS.Printf.Targets
import KvantOS.Ramfs.Files
import KvantOS.Scheduler.Fairness
import KvantOS.SectorTx.Failure
import KvantOS.Usb.Bulk
import KvantOS.Usb.Configuration
import KvantOS.User.Delivery
import KvantOS.User.Files
import KvantOS.User.Glyphs
import KvantOS.User.Lines
import KvantOS.User.Responses
import KvantOS.User.Tokens
import KvantOS.User.Transfers
import KvantOS.Vfs.Listing
