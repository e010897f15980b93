import Bsd386.Net.Bpf.Soundness
import Bsd386.Net.Bpf.Agreement
import Bsd386.Ufs.Advlock.Compat
import Bsd386.Ufs.Advlock.Waiters
import Bsd386.Ufs.Advlock.Deadlock
import Bsd386.Net.Slcompress.RoundTrip
import Bsd386.Net.Radix.Longest
import Bsd386.Net.Radix.Pointers
import Bsd386.Kern.Unp.Stream
import Bsd386.Kern.Unp.Sweep
import Bsd386.Net.Ip.Identity
import Bsd386.Net.Tcp.Stream
import Bsd386.Net.Ppp.Agree
import Bsd386.Msdosfs.Truncate
import Bsd386.Nfs.Exclusive
import Bsd386.Compress.Decompress
import Bsd386.Db.Hash.Distinct
import Bsd386.Db.Mpool.Transparent
import Bsd386.Db.Recno.Lists
import Bsd386.Kern.Proc.Unique
import Bsd386.Libc.Quad.Div
import Bsd386.Libc.Sort.Heapsort
import Bsd386.Libc.Gen.Glob
import Bsd386.Libc.Vis.Inverse
import Bsd386.Kern.Descrip.Runs
import Bsd386.Kern.Namecache.Runs
import Bsd386.Libc.Malloc.Runs
import Bsd386.Libc.Strtoq
import Bsd386.Kern.Malloc.Runs
import Bsd386.Net.Bpf.Bounds
import Bsd386.Net.Cksum
import Bsd386.Ufs.Advlock.Map
import Bsd386.Net.Slcompress.Twin
import Bsd386.Net.Ppp.Replies
import Bsd386.Net.Tcp.Fin
import Bsd386.Net.Tcp.Options
import Bsd386.Net.Tcp.Trim
import Bsd386.Net.Ip.Hostile
import Bsd386.Net.Bpf.Capture
import Bsd386.Msdosfs.Name
import Bsd386.Msdosfs.Time
import Bsd386.Ufs.Alloc.Hashalloc
import Bsd386.Ufs.Alloc.Complete
import Bsd386.Ufs.Inode.Counts
import Bsd386.Ufs.Lookup
import Bsd386.Vm.Map.Restore
import Bsd386.Vm.Map.FirstFit
import Bsd386.Kern.Mbuf.Lists
import Bsd386.Kern.Unp.AllOrNothing
