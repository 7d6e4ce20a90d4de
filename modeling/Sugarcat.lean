import Sugarcat.Kernel.InvalidateRegion
import Sugarcat.Armv7.Offline
import Sugarcat.Armv7.StoreLoop
import Sugarcat.Kernel.Mem
import Sugarcat.Vexpress.BootInit
import Sugarcat.Vexpress.Init
import Sugarcat.Vexpress.KernDirectory
import Sugarcat.Vexpress.MapRegion
import Sugarcat.Heap.Alloc
import Sugarcat.Heap.Blocks
import Sugarcat.Heap.Segment
import Sugarcat.Heap.Operations
import Sugarcat.Heap.BestFit
import Sugarcat.Heap.Refine
import Sugarcat.Heap.Tiling
import Sugarcat.Heap.Fresh
import Sugarcat.Heap.Soundness
import Sugarcat.Machine.Iteration
import Sugarcat.Util.Str
import Sugarcat.Fdt.Scan
import Sugarcat.Fdt.Tree
import Sugarcat.Fdt.Walk
import Sugarcat.Armv7.PgdEntry
import Sugarcat.Armv7.InvalidEntry
import Sugarcat.Armv7.HardwareWalk
import Sugarcat.Kernel.Permissions
import Sugarcat.Kernel.TlbCoherence
import Sugarcat.Armv7.OfflineBuild
import Sugarcat.Machine.Fields
import Sugarcat.Machine.Search
import Sugarcat.Fdt.PropertyLookup
import Sugarcat.Fdt.NodeLookup
import Sugarcat.Fdt.Progress
import Sugarcat.Fdt.StructBlock
import Sugarcat.Armv7.SwitchDirectory
import Sugarcat.Vexpress.LeftoverRam
import Sugarcat.Heap.Choice
import Sugarcat.Heap.Frame
import Sugarcat.Heap.AllocTest
import Sugarcat.Heap.Dump
import Sugarcat.Fdt.Cells
import Sugarcat.Util.Numerals
import Sugarcat.Util.Sprintf
import Sugarcat.Fdt.Footprint
import Sugarcat.Fdt.Dump
import Sugarcat.Vexpress.MemLayout
import Sugarcat.Vexpress.PhysicalMemory
import Sugarcat.Vexpress.Initrd
import Sugarcat.Atag.Queries
import Sugarcat.Atag.Termination
import Sugarcat.Machine.Pieces
import Sugarcat.Vexpress.HeldRegion
import Sugarcat.Vexpress.MemAtag
import Sugarcat.Util.Decimal
import Sugarcat.Util.Format
import Sugarcat.Vexpress.EarlyKprintf
import Sugarcat.Util.FormatScan
import Sugarcat.Vexpress.Formatters
import Sugarcat.Machine.Footprint
import Sugarcat.Util.StringOrder
import Sugarcat.Kernel.KernelInit
import Sugarcat.Kernel.BootLog
import Sugarcat.Kernel.Regions
import Sugarcat.Kernel.Pmm
import Sugarcat.Vexpress.TableRegion
import Sugarcat.Kernel.AddressSpaces
import Sugarcat.Kernel.SpaceHistory
import Sugarcat.Kernel.SpaceTlb
import Sugarcat.Vexpress.AddressSpace
import Sugarcat.Vexpress.Protection
import Sugarcat.Util.Hexadecimal
import Sugarcat.Armv6.Mmu
import Sugarcat.Util.Strrev
import Sugarcat.Armv6.TwoLevel
