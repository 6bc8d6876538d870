import Icix.Library.Bytes
import Icix.Library.Overlay
import Icix.Library.Copies
import Icix.Library.Ints
import Icix.Library.WordBits
import Icix.Library.Ownership
import Icix.Library.Runs
import Icix.Library.Trees
import Icix.Library.Fuel
import Icix.Library.Cycles
import Icix.Library.Cells
import Icix.Library.Lifting
import Icix.Library.Ia32
import Icix.Library.Devices
import Icix.Fs.State
import Icix.Fs.Indices
import Icix.Fs.Operations
import Icix.Fs.Mkfs
import Icix.Fs.Layout
import Icix.Fs.Commit
import Icix.Fs.Blocks
import Icix.Fs.Read
import Icix.Fs.Write
import Icix.Fs.File
import Icix.Fs.Creat
import Icix.Fs.Mount
import Icix.Fs.Directory
import Icix.Fs.Entry
import Icix.Fs.Extend
import Icix.Fs.Unlink
import Icix.Fs.Effect
import Icix.Fs.Dirty
import Icix.Fs.Release
import Icix.Fs.Known
import Icix.Fs.Twins
import Icix.Fs.Alike
import Icix.Fs.Persist
import Icix.Fs.Size
import Icix.Fs.Tree
import Icix.Fs.Hierarchy
import Icix.Fs.Print
import Icix.Fs.Listing
import Icix.Fs.Removal
import Icix.Fs.Names
import Icix.Fs.Ramdisk
import Icix.Fs.Remount
import Icix.Fs.Boot
import Icix.Fs.Failure
import Icix.Fs.Capacity
import Icix.Fs.Rejection
import Icix.Fs.Bounds
import Icix.Fs.Pieces
import Icix.Fs.Chunks
import Icix.Fs.Format
import Icix.Fs.Sparse
import Icix.Fs.Leaks
import Icix.Fs.Contents
import Icix.Fs.Descent
import Icix.Fs.Screen
import Icix.Mm.Frames
import Icix.Mm.Allocation
import Icix.Mm.Paging
import Icix.Mm.Malloc
import Icix.Mm.Bitmap
import Icix.Mm.Tables
import Icix.Mm.PageFault
import Icix.Dev.Terminal
import Icix.Dev.Initrd
import Icix.Dev.Interrupts
import Icix.Dev.Pic
import Icix.Dev.Timer
import Icix.Libc.Memory
import Icix.Libc.Order
import Icix.Libc.IntStr
import Icix.Libc.Strings
import Icix.Libc.Printf
import Icix.Libc.Decimal
import Icix.Libc.Text
import Icix.Libc.Sequence
import Icix.Libc.Units
import Icix.Libc.Room
import Icix.Libc.Floating
import Icix.Libc.Padding
import Icix.Libc.Unsigned
import Icix.Libc.Reading
