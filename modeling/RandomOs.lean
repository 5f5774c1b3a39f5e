import RandomOs.Kern.Queue
import RandomOs.Usr.MmapReach
import RandomOs.Usr.Containment
import RandomOs.Usr.Access
import RandomOs.Ramfs.Dir
import RandomOs.Ramfs.File
import RandomOs.Mem.MapLaws
import RandomOs.Ext2.Mklink
import RandomOs.Libc.Strtoul
import RandomOs.Libc.Output
import RandomOs.Libc.Input
import RandomOs.Ldso.Order
import RandomOs.Ldso.Load
import RandomOs.Block.Generic
import RandomOs.Block.VirtioBlk
import RandomOs.Ext2.Mount
import RandomOs.Mem.PmmBoot
import RandomOs.Ext2.Counters
import RandomOs.Usr.InitStack
import RandomOs.Ext2.DirScan
import RandomOs.Kern.Udevr
import RandomOs.Sched.Cwd
import RandomOs.Vfs.Seek
import RandomOs.Ramfs.Numbers
import RandomOs.Time.Calendar
import RandomOs.Time.Clock
import RandomOs.Block.Ahci
import RandomOs.Ldso.Search
import RandomOs.Usb.Uhci
import RandomOs.Kern.Cmdline
