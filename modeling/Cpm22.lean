import Cpm22.Bdos.AllocMap
import Cpm22.Console.Input
import Cpm22.Console.LineEnds
import Cpm22.Console.Output
import Cpm22.Console.Telnet
import Cpm22.Disk.Allocation
import Cpm22.Disk.Attributes
import Cpm22.Disk.Buffer
import Cpm22.Disk.Bystanders
import Cpm22.Disk.Containment
import Cpm22.Disk.CpmDir
import Cpm22.Disk.Faults
import Cpm22.Disk.Fidelity
import Cpm22.Disk.Growth
import Cpm22.Disk.HostTree
import Cpm22.Disk.ImportLength
import Cpm22.Disk.ImportNames
import Cpm22.Disk.Lengths
import Cpm22.Disk.Listing
import Cpm22.Disk.NameMap
import Cpm22.Disk.Offset
import Cpm22.Disk.Packing
import Cpm22.Disk.Pointers
import Cpm22.Disk.Restart
import Cpm22.Lib.BitMap
import Cpm22.Lib.Exc
import Cpm22.Lib.HostFs
import Cpm22.Lib.Outward
import Cpm22.Machine.Bios
import Cpm22.Machine.Boot
import Cpm22.Machine.ColdBoot
import Cpm22.Machine.Cpu
import Cpm22.Machine.Dma
import Cpm22.Machine.Dump
import Cpm22.Machine.Image
import Cpm22.Machine.Locks
import Cpm22.Machine.Memory
import Cpm22.Machine.Monitor
import Cpm22.Machine.Ports
import Cpm22.Machine.Retry
import Cpm22.Machine.Sectors
import Cpm22.Bdos.Records
import Cpm22.Bdos.Drive
import Cpm22.Bdos.Keys
import Cpm22.Bdos.Files
import Cpm22.Bdos.Sound
import Cpm22.Bdos.Extents
import Cpm22.Bdos.Access
import Cpm22.Bdos.Writing
import Cpm22.Bdos.Entries
import Cpm22.Bdos.System
import Cpm22.Bdos.Login
import Cpm22.Bdos.Sequential
import Cpm22.Bdos.Terminal
import Cpm22.Bdos.LineEdit
import Cpm22.Bdos.Display
import Cpm22.Bdos.ConsoleRuns
import Cpm22.Bdos.Search
import Cpm22.Bdos.Protect
import Cpm22.Machine.Tracks
import Cpm22.Bdos.Size
import Cpm22.Ccp.Names
import Cpm22.Ccp.Dir
import Cpm22.Ccp.Numbers
import Cpm22.Ccp.Erase
import Cpm22.Ccp.Save
import Cpm22.Bdos.Agreement
