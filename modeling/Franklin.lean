import Franklin.Lib.Ledger
import Franklin.Lib.Radix
import Franklin.Lib.FirstWins
import Franklin.Lib.Endian
import Franklin.Pmm.Basic
import Franklin.Pmm.Lemmas.Bitmap
import Franklin.Pmm.Lemmas.Palloc
import Franklin.Pmm.Lemmas.Scan
import Franklin.Pmm.Lemmas.Initbmap
import Franklin.Pmm.Lemmas.Cleared
import Franklin.Vmm.Basic
import Franklin.Vmm.Linker
import Franklin.Vmm.Lemmas.Walk
import Franklin.Vmm.Lemmas.Mappage
import Franklin.Vmm.Lemmas.KernelHalf
import Franklin.Vmm.Lemmas.Entries
import Franklin.Vmm.Lemmas.Mappages
import Franklin.Vmm.Lemmas.Confined
import Franklin.Vmm.Lemmas.Rights
import Franklin.Vmm.Lemmas.InitVm
import Franklin.Vmm.Lemmas.Sections
import Franklin.Vmm.Lemmas.Newvm
import Franklin.Vmm.Lemmas.Spaces
import Franklin.Vmm.Lemmas.Destroy
import Franklin.Lib.SList
import Franklin.Slab.Basic
import Franklin.Slab.Heap
import Franklin.Slab.Lemmas.Roundup
import Franklin.Slab.Lemmas.Newslab
import Franklin.Slab.Lemmas.Freelist
import Franklin.Slab.Lemmas.Invariant
import Franklin.Slab.Lemmas.Large
import Franklin.Slab.Lemmas.Kalloc
import Franklin.Slab.Lemmas.Disjoint
import Franklin.Slab.Lemmas.Separated
import Franklin.Slab.Lemmas.Refcount
import Franklin.Slab.Lemmas.Heap
import Franklin.Lib.Wp
import Franklin.Lib.Alike
import Franklin.Lib.Block
import Franklin.Lib.Cstring
import Franklin.Fs.Basic
import Franklin.Fs.File
import Franklin.Fs.Lemmas.Grow
import Franklin.Fs.Lemmas.File
import Franklin.Fs.Lemmas.Contents
import Franklin.Fs.Lemmas.Listing
import Franklin.Fs.Lemmas.Records
import Franklin.Fs.Lemmas.Cursor
import Franklin.Fs.Dirent
import Franklin.Fs.Lemmas.Numbered
import Franklin.Fs.Lemmas.Dirent
import Franklin.Fs.Initramfs
import Franklin.Fs.Ramfs
import Franklin.Fs.Vfs
import Franklin.Fs.Resolve
import Franklin.Fs.Lemmas.Walked
import Franklin.Fs.Lemmas.Vget
import Franklin.Fs.Lemmas.Lookup
import Franklin.Fs.Lemmas.Exact
import Franklin.Fs.Lemmas.Paths
import Franklin.Fs.Lemmas.Namei
import Franklin.Fs.Lemmas.Last
import Franklin.Lib.Hier
import Franklin.Lib.DList
import Franklin.Fs.Update
import Franklin.Fs.Lemmas.Update
import Franklin.Fs.Lemmas.Forest
import Franklin.Fs.Tree
import Franklin.Fs.Lemmas.Tree
import Franklin.Fs.Lemmas.Chain
import Franklin.Fs.Calls
import Franklin.Fs.Mount
import Franklin.Fs.Lemmas.Rules
import Franklin.Fs.Lemmas.Fixed
import Franklin.Fs.Lemmas.Tame
import Franklin.Fs.Lemmas.Names
import Franklin.Fs.Lemmas.Lists
import Franklin.Fs.Lemmas.Unmount
import Franklin.Fs.Lemmas.Grove
import Franklin.Fs.Lemmas.Sown
import Franklin.Fs.Lemmas.Mounting
import Franklin.Fs.Lemmas.Parents
import Franklin.Fs.Lemmas.Mounts
import Franklin.Fs.Lemmas.Slashes
import Franklin.Fs.Lemmas.Removal
import Franklin.Fs.Lemmas.Refused
import Franklin.Fs.Lemmas.Returns
import Franklin.Fs.Lemmas.Leaks
import Franklin.Fs.View
import Franklin.Fs.Lemmas.View
import Franklin.Fs.Lemmas.Outcome
import Franklin.Fs.Lemmas.Overwritten
import Franklin.Lib.Journal
import Franklin.Fs.Lemmas.History
import Franklin.Fs.Lemmas.Reports
import Franklin.Fs.Lemmas.Joined
import Franklin.Fs.Lemmas.Trailing
import Franklin.Fs.Lemmas.Dotdots
import Franklin.Fs.Lemmas.Extended
import Franklin.Fs.Lemmas.Climbs
import Franklin.Lib.Orbit
import Franklin.Fs.Lemmas.Faults
import Franklin.Fs.Lemmas.Circles
import Franklin.Fs.Lemmas.Copies
import Franklin.Fs.Lemmas.Moved
import Franklin.Fs.Lemmas.Backed
import Franklin.Fs.Lemmas.Locks
import Franklin.Fs.Lemmas.Passed
import Franklin.Fs.Lemmas.Released
import Franklin.Fs.Lemmas.Opens
import Franklin.Fs.Readdir
import Franklin.Fs.Lemmas.Memory
import Franklin.Fs.Thread
import Franklin.Fs.Lemmas.Thread
import Franklin.Fs.Machine
import Franklin.Fs.Lemmas.Machine
import Franklin.Fs.Lemmas.Disciplined
import Franklin.Fs.Lemmas.Exclusion
import Franklin.Fs.Lemmas.Deadlock
import Franklin.Lib.Words
import Franklin.Switch.Basic
import Franklin.Switch.Lemmas.Frames
import Franklin.Switch.Machine
import Franklin.Switch.Lemmas.Resume
import Franklin.Sched.Basic
import Franklin.Sched.Lemmas.Machine
import Franklin.Sched.Lemmas.Alloc
import Franklin.Sched.Lemmas.Safe
import Franklin.Sched.Lemmas.Handover
import Franklin.Sched.Lemmas.Relock
import Franklin.Sched.Lemmas.Reselect
import Franklin.Console.Lemmas.Waits
import Franklin.Lib.Spool
import Franklin.Console.Lemmas.Serial
import Franklin.Console.Lemmas.Keys
import Franklin.Exec.Memory
import Franklin.Exec.Copyargs
import Franklin.Exec.Basic
import Franklin.Exec.Lemmas.Copyargs
import Franklin.Exec.Lemmas.Supply
import Franklin.Exec.Lemmas.Segment
import Franklin.Exec.Lemmas.Loadelf
import Franklin.Exec.Lemmas.Writes
import Franklin.Exec.Lemmas.Contents
import Franklin.Exec.Lemmas.Isolation
import Franklin.Cstring.Basic
import Franklin.Cstring.Lemmas.Terminated
import Franklin.Acpi.Basic
import Franklin.Acpi.Lemmas.Sdt
import Franklin.Fs.Lemmas.Octal
import Franklin.Acpi.Lemmas.Madt
import Franklin.Time.Basic
import Franklin.Time.Lemmas.Sleep
import Franklin.Sched.Lemmas.Search
import Franklin.Fs.Dir
import Franklin.Fs.Lemmas.Dir
import Franklin.Fs.Lemmas.Archive
import Franklin.Exec.Lemmas.Args
import Franklin.Exec.Lemmas.Exec
import Franklin.Vmm.Lemmas.Boot
import Franklin.Exec.Procs
import Franklin.Exec.Lemmas.Owned
import Franklin.Exec.Lemmas.Procs
import Franklin.Exec.Lemmas.Direct
import Franklin.Interrupt.Pic
import Franklin.Interrupt.Idt
import Franklin.Interrupt.Machine
import Franklin.Interrupt.Lemmas.Gates
import Franklin.Interrupt.Lemmas.Served
import Franklin.Gdt.Basic
import Franklin.Gdt.Lemmas.Tss
import Franklin.Cstring.Lemmas.Itoa
import Franklin.Pmm.Words
import Franklin.Pmm.Lemmas.Words
import Franklin.Slab.Lemmas.Dispatch
