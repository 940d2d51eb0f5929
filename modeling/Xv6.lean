import Xv6.Conc.Logic
import Xv6.Bio.Machine
import Xv6.Bio.Store
import Xv6.Bio.Coherence
import Xv6.Bio.Refinement
import Xv6.Bio.Journal
import Xv6.Bio.LogInv
import Xv6.Bio.Commit
import Xv6.Bio.Crash
import Xv6.Bio.Supply
import Xv6.Fs.Layout
import Xv6.Fs.Inode
import Xv6.Fs.Path
import Xv6.Fs.Transfer
import Xv6.Fs.Node
import Xv6.Fs.Disk
import Xv6.Conc.Run
import Xv6.Fs.Logged
import Xv6.Proc.Kernel
import Xv6.Proc.Sleep
import Xv6.Lib.Fifo
import Xv6.Proc.Pipe
import Xv6.Proc.WaitInv
import Xv6.Proc.WaitRules
import Xv6.Proc.Waiting
import Xv6.Proc.Life
import Xv6.Proc.LifeInv
import Xv6.Proc.LifeRules
import Xv6.Proc.Family
import Xv6.Lib.Exec
import Xv6.Vm.Paging
import Xv6.Vm.Place
import Xv6.Vm.Rules
import Xv6.Vm.SpaceRules
import Xv6.Vm.Plan
import Xv6.Vm.Exec
import Xv6.Vm.ExecRules
import Xv6.Vm.System
import Xv6.Vm.Owners
import Xv6.Vm.Ownership
import Xv6.Vm.Resize
import Xv6.Vm.Copies
import Xv6.Vm.Arguments
import Xv6.User.Access
import Xv6.User.Confined
import Xv6.Console.Input
import Xv6.Console.Discipline
import Xv6.Xvsh.Shell
import Xv6.Xvsh.Commands
import Xv6.Xvsh.Foreground
import Xv6.Xvsh.Pipeline
import Xv6.Mkfs.Build
import Xv6.Mkfs.Image
import Xv6.Mkfs.WellFormed
import Xv6.Fs.Read
import Xv6.Mkfs.Agree
import Xv6.Conc.Cpus
import Xv6.Sched.Machine
import Xv6.Sched.Inv
import Xv6.Sched.Rules
import Xv6.Sched.Running
import Xv6.Files.Table
import Xv6.Conc.Tokens
import Xv6.Files.Inv
import Xv6.Files.Rules
import Xv6.Files.Calls
import Xv6.Files.Exact
import Xv6.Fs.Alloc
import Xv6.Fs.Write
import Xv6.Fs.File
import Xv6.Lib.Slots
import Xv6.Fs.Directory
import Xv6.Fs.Chunk
import Xv6.Fs.Shared
import Xv6.Fs.Resolve
import Xv6.Sh.Lexer
import Xv6.Xvsh.Line
import Xv6.Sh.Parser
import Xv6.Sh.Run
import Xv6.Ide.Driver
import Xv6.Ide.Refinement
import Xv6.Ide.Errors
import Xv6.Umalloc.Requests
import Xv6.Grep.Matcher
import Xv6.Grep.Chunks
import Xv6.Mp.Table
import Xv6.Ulib.Memmove
import Xv6.Ulib.Printint
import Xv6.Vm.Mappages
import Xv6.Sched.Interrupts
