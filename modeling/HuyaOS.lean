import HuyaOS.Async.AtomicBitmap
import HuyaOS.Async.Spinlock
import HuyaOS.FreeList.Aligned
import HuyaOS.FreeList.Shrink
import HuyaOS.FreeList.Grow
import HuyaOS.Kernel.Teardown
import HuyaOS.Kernel.IoMapping
import HuyaOS.Thread.Order
import HuyaOS.Util.SmartPointer
import HuyaOS.Util.LinkedListRuns
import HuyaOS.Storage.DeletePartition
import HuyaOS.Storage.PartitionNumbers
import HuyaOS.Storage.RegisteredDevices
import HuyaOS.Filesystem.DeviceTree
import HuyaOS.Kernel.EventDelivery
import HuyaOS.Device.Mouse
import HuyaOS.Device.KeyStrokes
import HuyaOS.Device.Rtc
import HuyaOS.Device.Pci
import HuyaOS.Device.AhciCommand
import HuyaOS.Kernel.GdbServer
import HuyaOS.Shell.Mathexpr
import HuyaOS.Elf.Program
import HuyaOS.Memory.StaticHeapMemoryManager
import HuyaOS.Storage.VirtualDiskDrive
import HuyaOS.Kernel.IoBookkeeping
import HuyaOS.Kernel.Multiboot
import HuyaOS.Stream.AnsiOutputStream
import HuyaOS.Stream.OutputStream
import HuyaOS.Libc.Truncation
import HuyaOS.Filesystem.ReadBounds
import HuyaOS.Filesystem.RamFiles
import HuyaOS.Filesystem.TarWalk
import HuyaOS.Device.TimeProvider
import HuyaOS.Device.KeyTables
import HuyaOS.Elf.Sections
import HuyaOS.Graphic.Color
import HuyaOS.Util.ArraySort
