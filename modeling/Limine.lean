import Limine.Machine
import Limine.Lib.SwapRemove
import Limine.Pmm.Memmap
import Limine.Pmm.Sanitise
import Limine.Pmm.SplitUsable
import Limine.Pmm.SortMerge
import Limine.Pmm.SanitiseSpec
import Limine.Pmm.Alloc
import Limine.Pmm.NewEntry
import Limine.Pmm.AllocRuns
import Limine.Lib.UndoLog
import Limine.Lib.Bytes
import Limine.Host.Device
import Limine.Host.DeviceSpec
import Limine.Host.RawSpec
import Limine.Host.Undo
import Limine.Host.UndoRuns
import Limine.Lib.RadixTable
import Limine.Lib.BitWindow
import Limine.Vmm.PageTable
import Limine.Vmm.AddressSpace
import Limine.Vmm.Refine
import Limine.Vmm.Walk
import Limine.Vmm.LoongArch
import Limine.Vmm.AArch64
import Limine.Vmm.RiscV
import Limine.Vmm.X86
import Limine.Vmm.X86Split
import Limine.Menu.Path
import Limine.Menu.RowMatch
import Limine.Menu.BootId
import Limine.Menu.Gui
import Limine.Menu.Terminal
import Limine.Editor.Buffer
import Limine.Editor.Draw
import Limine.Editor.Events
import Limine.Menu.LoopRuns
import Limine.Limlz.Decompressor
import Limine.Limlz.Safety
import Limine.Limlz.Symbols
import Limine.Limlz.Parse
import Limine.Limlz.BcjEncode
import Limine.Limlz.Compress
import Limine.Lib.IntervalCode
import Limine.Lib.Tiling
import Limine.Lib.Transport
import Limine.Limlz.RoundTrip
import Limine.Efi.ExitBootServices
import Limine.Crypt.Blake2b
import Limine.Crypt.Compress
import Limine.Crypt.Absorb
import Limine.Uri.Resolve
import Limine.Uri.Gzip
import Limine.Uri.GzipStream
import Limine.Uri.HashStream
import Limine.Uri.Open
import Limine.Multiboot.Elsewhere
import Limine.Lib.Relr
import Limine.Loader.Memory
import Limine.Loader.Placement
import Limine.Elf.Format
import Limine.Elf.Relocations
import Limine.Elf.Prepare
import Limine.Elf.Load
import Limine.Elf.Segments
import Limine.Elf.Image
import Limine.Elf.Reference
import Limine.Elf.Loaded
import Limine.Elf.Safety
import Limine.Elf.Refines
import Limine.Elf.Ranges
import Limine.Vmm.Ports
import Limine.Protos.Pagemap
import Limine.Pe.Load
import Limine.Pe.Walk
import Limine.Pe.Safety
import Limine.Part.VolumeRead
import Limine.Part.Transparent
import Limine.Part.Gpt
import Limine.Part.Mbr
import Limine.Part.Probing
import Limine.Pmm.Room
import Limine.Pmm.ClaimUefi
import Limine.Pmm.ReclaimUefi
import Limine.Acpi.MapTables
import Limine.EfiPt.Walk
import Limine.EfiPt.Entries
import Limine.EfiPt.Restore
import Limine.Protos.PagingMode
import Limine.Protos.DirectMap
import Limine.Protos.HhdmWindow
import Limine.Protos.MemmapReported
import Limine.Lib.Scan
import Limine.Elf.Section
import Limine.Protos.Requests
import Limine.Protos.RequestWindow
import Limine.Protos.RequestsFound
import Limine.Lib.Lines
import Limine.Config.Lookup
import Limine.Config.MenuTree
import Limine.Config.Macros
import Limine.Config.MacroLines
import Limine.Config.MacroPasses
import Limine.Config.Init
import Limine.Config.Strip
import Limine.Config.Tuples
import Limine.Config.GlobalScope
import Limine.Smp.Madt
import Limine.Smp.Cpus
import Limine.Smp.CpusListed
import Limine.Smp.BootProcessor
import Limine.Fs.Volume
import Limine.Fs.Names
import Limine.Fs.Touches
import Limine.Iso9660.Directory
import Limine.Iso9660.File
import Limine.Iso9660.Records
import Limine.Iso9660.Touches
import Limine.Iso9660.Extents
import Limine.Lib.Successors
import Limine.Lib.Traced
import Limine.Fat32.Context
import Limine.Fat32.Open
import Limine.Fat32.LongNames
import Limine.Fat32.Lookup
import Limine.Fat32.NameBuffer
import Limine.Fat32.Chains
import Limine.Fat32.Reads
import Limine.Lib.ByteMemory
import Limine.Pmm.Pages
import Limine.Uri.Drain
import Limine.Ui.FontRuns
import Limine.Ui.Pointer
import Limine.Ui.Rotation
import Limine.Editor.Redraw
import Limine.Elf.Placed
import Limine.Protos.Kaslr
import Limine.Protos.FramebufferTrim
import Limine.Mtrr.WriteCombining
import Limine.Ui.Details
import Limine.Elf.Elsewhere
import Limine.Lib.FirstMatch
import Limine.Drivers.Mouse
import Limine.Drivers.Pointer
import Limine.Drivers.Clicks
import Limine.Lib.Coverage
import Limine.Multiboot.Relocate
import Limine.Multiboot.RelocateSearch
import Limine.Lib.Qoi
import Limine.Image.Qoi
import Limine.Image.QoiRefines
import Limine.Riscv.Isa
import Limine.Tpm.EventSize
import Limine.Tpm.Measured
import Limine.Host.LastBlock
import Limine.Lib.PathNames
import Limine.Uri.AbsolutePath
import Limine.Drivers.DevicePath
import Limine.Pmm.Overflowing
import Limine.Pmm.InitMemmap
import Limine.Protos.PagingModeRequest
import Limine.Menu.SerialInput
import Limine.Lib.Chunks
import Limine.Menu.SerialKeys
import Limine.Lib.Frontier
import Limine.Pmm.MemInfo
import Limine.Lib.HeapSort
import Limine.Ui.FontSort
import Limine.Ui.Codepoints
import Limine.Lib.Occurrence
import Limine.Host.EnrollConfig
import Limine.Config.Smbios
import Limine.Lib.CStrings
import Limine.Ui.Document
import Limine.Ui.DocumentRead
import Limine.Lib.Patchwork
import Limine.Gterm.Canvas
import Limine.Gterm.CanvasPainted
import Limine.Lib.Verdict
import Limine.Lib.Cells
import Limine.Ui.HintSettings
import Limine.Ui.Hints
