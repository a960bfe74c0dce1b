import AmateurOs.Heap.Coalesce
import AmateurOs.Syscalls.Cursor
import AmateurOs.Memory.Boot
import AmateurOs.Memory.Balance
import AmateurOs.Exec.Cycle
import AmateurOs.Exec.Exit
import AmateurOs.Terminal.Numbers
import AmateurOs.Terminal.Screen
import AmateurOs.Keyboard.Order
import AmateurOs.Keyboard.Scancodes
import AmateurOs.Fs.Exhaustion
import AmateurOs.Fs.Lookup
import AmateurOs.Fs.Spelling
import AmateurOs.MakeDisk.Lookup
import AmateurOs.MakeDisk.Agreement
import AmateurOs.Fs.Caches
import AmateurOs.Calculator.Lenient
import AmateurOs.Calculator.Malformed
import AmateurOs.Editor.Navigation
import AmateurOs.Editor.Typing
import AmateurOs.Fonts.Glyphs
import AmateurOs.Fs.Bitmaps
import AmateurOs.Memory.Search
import AmateurOs.Memory.Faults
import AmateurOs.Fs.Wiping
import AmateurOs.Fs.Loss
import AmateurOs.Syscalls.Transfers
import AmateurOs.Fs.Renaming
import AmateurOs.Fs.Tree
import AmateurOs.Fs.Undo
import AmateurOs.Fs.Entries
import AmateurOs.Fs.Bootable
import AmateurOs.Fs.Growing
import AmateurOs.Heap.Growth
import AmateurOs.Syscalls.Chunks
import AmateurOs.Shell.Tokens
import AmateurOs.Syscalls.MakeDir
import AmateurOs.Exec.Sections
import AmateurOs.Exec.Closing
import AmateurOs.Graphics.Circles
import AmateurOs.Graphics.Fill
import AmateurOs.Graphics.Conversion
import AmateurOs.Editor.Hex
import AmateurOs.MakeDisk.Bitmaps
import AmateurOs.MakeDisk.Failures
import AmateurOs.Heap.Rewriting
import AmateurOs.Fs.Cuts
import AmateurOs.MakeDisk.Sizes
import AmateurOs.MakeDisk.Table
import AmateurOs.Strings.Memcpy
import AmateurOs.Strings.Memcmp
import AmateurOs.Fs.Ways
import AmateurOs.Syscalls.Reopen
import AmateurOs.Fs.Removal
import AmateurOs.Syscalls.Deletions
import AmateurOs.Fs.Addition
import AmateurOs.Syscalls.Agreement
import AmateurOs.Lib.NameTree
import AmateurOs.Fs.Names
import AmateurOs.Fs.Edits
import AmateurOs.Fs.Refinement
import AmateurOs.Lib.Paper
import AmateurOs.Terminal.Cells
import AmateurOs.Terminal.Display
import AmateurOs.Fs.Listing
import AmateurOs.Shell.Lines
import AmateurOs.Shell.Echo
import AmateurOs.Syscalls.Durable
import AmateurOs.Shell.Files
import AmateurOs.Memory.Space
import AmateurOs.Memory.Setup
