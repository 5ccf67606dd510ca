import Zv6.Fs.BlockSet
import Zv6.Fs.Shared
import Zv6.Fs.CrashRun
import Zv6.Fs.Depth
import Zv6.Cache.Flat
import Zv6.Cache.Ring
import Zv6.Cache.Inodes
import Zv6.Recovery.CrashSafe
import Zv6.Pipe.Wakeup
import Zv6.Proc.Kill
import Zv6.Proc.Pids
import Zv6.Sleep.Exclusive
import Zv6.Fd.Account
import Zv6.Mem.Fork
import Zv6.Mem.Exec
import Zv6.Args.Checks
import Zv6.Sh.Parse
import Zv6.Grep.Lines
import Zv6.Console.Reads
import Zv6.Str.Memmove
import Zv6.Mkfs.Checksum
import Zv6.Mkfs.Agree
