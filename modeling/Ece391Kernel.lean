import Ece391Kernel.Library.Run
import Ece391Kernel.Library.Blocks
import Ece391Kernel.FileSystem.ReadData
import Ece391Kernel.Library.Memory
import Ece391Kernel.Paging.Tables
import Ece391Kernel.Library.ByteStore
import Ece391Kernel.Screen.Frame
import Ece391Kernel.Paging.Isolation
import Ece391Kernel.Descriptor.Calls
import Ece391Kernel.Descriptor.Chunking
import Ece391Kernel.Descriptor.Table
import Ece391Kernel.Screen.Refinement
import Ece391Kernel.Process.Effects
import Ece391Kernel.Process.Tree
import Ece391Kernel.Process.Accounting
import Ece391Kernel.Schedule.Interleaved
import Ece391Kernel.Process.Failure
import Ece391Kernel.Process.Load
import Ece391Kernel.FileSystem.Malformed
import Ece391Kernel.FileSystem.Dentry
import Ece391Kernel.Descriptor.Enumeration
import Ece391Kernel.Process.Lookup
import Ece391Kernel.Screen.LineRead
import Ece391Kernel.Process.OpenFiles
import Ece391Kernel.Schedule.Arguments
import Ece391Kernel.Schedule.Display
import Ece391Kernel.Screen.Vidmap
import Ece391Kernel.Process.Buffers
import Ece391Kernel.Process.Header
import Ece391Kernel.Process.Contain
import Ece391Kernel.Screen.LineEditor
import Ece391Kernel.Screen.Modifiers
import Ece391Kernel.Screen.Lines
import Ece391Kernel.Screen.Echo
import Ece391Kernel.Schedule.KeyInterrupt
import Ece391Kernel.Screen.VidmapPointer
import Ece391Kernel.Process.ReadBounds
import Ece391Kernel.Schedule.ClockTicks
import Ece391Kernel.Assembly.SyscallWrapper
import Ece391Kernel.Assembly.Memmove
import Ece391Kernel.Printing.Conversions
import Ece391Kernel.Kernel.EndOfInterrupt
import Ece391Kernel.Grep.Report
import Ece391Kernel.Screen.Accesses
import Ece391Kernel.Fish.Linking
import Ece391Kernel.Fish.Blinking
import Ece391Kernel.Programs.Ls
import Ece391Kernel.Programs.OnScreen
import Ece391Kernel.Clock.Rate
import Ece391Kernel.Kernel.Descriptors
import Ece391Kernel.Kernel.InterruptLines
import Ece391Kernel.Schedule.RoundRobin
import Ece391Kernel.Programs.GrepRuns
import Ece391Kernel.Fish.Main
