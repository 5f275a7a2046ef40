import LumettaOS.Lib.Scan
import LumettaOS.Lib.BitField
import LumettaOS.Lib.Runs
import LumettaOS.Lib.Logged
import LumettaOS.Lib.ByteLoop
import LumettaOS.Lib.Orbit
import LumettaOS.Lib.Stack
import LumettaOS.Word
import LumettaOS.CString
import LumettaOS.Itoa
import LumettaOS.FileSystem
import LumettaOS.ReadData
import LumettaOS.BlockFetch
import LumettaOS.Lookup
import LumettaOS.Console
import LumettaOS.Screen
import LumettaOS.Cursor
import LumettaOS.Printf
import LumettaOS.KernelOutput
import LumettaOS.Keyboard
import LumettaOS.Modifiers
import LumettaOS.Terminal
import LumettaOS.Layout
import LumettaOS.Rtc
import LumettaOS.Process
import LumettaOS.FileCalls
import LumettaOS.Descriptors
import LumettaOS.ReadSafety
import LumettaOS.Guards
import LumettaOS.FileStream
import LumettaOS.Directory
import LumettaOS.Paging
import LumettaOS.AddressSpace
import LumettaOS.PagedRead
import LumettaOS.Execute
import LumettaOS.MemoryRoutines
import LumettaOS.MemoryMove
import LumettaOS.Dispatch
import LumettaOS.Vidmap
import LumettaOS.Command
import LumettaOS.System
import LumettaOS.Launch
import LumettaOS.Loading
import LumettaOS.Positions
import LumettaOS.Slots
import LumettaOS.Processes
import LumettaOS.Lifetime
import LumettaOS.WholeWord
import LumettaOS.Arguments
import LumettaOS.CommandTail
import LumettaOS.Reader
import LumettaOS.Lines
import LumettaOS.KeyBuffer
import LumettaOS.TypeAhead
import LumettaOS.ReadCount
import LumettaOS.LineEditor
import LumettaOS.Echo
import LumettaOS.RtcReader
import LumettaOS.RtcTiming
import LumettaOS.RtcChip
import LumettaOS.Gates
import LumettaOS.Pic
import LumettaOS.Interrupts
import LumettaOS.Traps
import LumettaOS.Faults
import LumettaOS.SystemCalls
import LumettaOS.UserLibrary
import LumettaOS.UserPrograms
import LumettaOS.Grep
import LumettaOS.Shell
import LumettaOS.Counter
