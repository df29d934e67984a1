import FengOS.Boot.Mptable
import FengOS.Core.ExitTheorems
import FengOS.Core.IpcTheorems
import FengOS.Core.TreeTheorems
import FengOS.Core.PidTheorems
import FengOS.Core.AllocTheorems
import FengOS.Mm.BuddyTheorems
import FengOS.Mm.SlabTheorems
import FengOS.Mm.SlabObjectsTheorems
import FengOS.Core.WaitTheorems
import FengOS.Mm.PageTheorems
import FengOS.Mm.CopyTheorems
import FengOS.Mm.MapFailTheorems
import FengOS.Mm.MemoryTheorems
import FengOS.Ext2.BlockTheorems
import FengOS.Ext2.AllocTheorems
import FengOS.Ext2.FileTheorems
import FengOS.Ext2.ReadTheorems
import FengOS.Ext2.ScanTheorems
import FengOS.Ext2.GetdentsTheorems
import FengOS.Ext2.FailureTheorems
import FengOS.Ext2.WriteBackTheorems
import FengOS.Mm.ExecTheorems
import FengOS.Libc.MallocTheorems
import FengOS.Libc.SbrkTheorems
import FengOS.Libc.ReaddirTheorems
import FengOS.Shell.Words
import FengOS.Fat32.Lookup
import FengOS.Exec.SetupTheorems
import FengOS.Mm.Isolation
import FengOS.Vfs.PathTheorems
import FengOS.Vfs.TableTheorems
import FengOS.Vfs.TreeTheorems
import FengOS.Vfs.CountTheorems
import FengOS.Vfs.CwdTheorems
import FengOS.Vfs.CopiesTheorems
import FengOS.Vfs.RepliesTheorems
import FengOS.Vfs.SizesTheorems
import FengOS.Vfs.Lseek
import FengOS.Exec.ExecveTheorems
import FengOS.Exec.SegmentsTheorems
import FengOS.Keyboard.BufferTheorems
import FengOS.Keyboard.ScancodeTheorems
import FengOS.Video.VgaTheorems
import FengOS.Printf.VsnprintfTheorems
import FengOS.Printf.UnsignedTheorems
import FengOS.Printf.Signed
import FengOS.Core.SchedTheorems
import FengOS.Core.IrqTheorems
import FengOS.Core.ForkTheorems
import FengOS.Core.List
import FengOS.Disk.ServerTheorems
import FengOS.Disk.TransferTheorems
