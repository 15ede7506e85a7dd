import ZfsTest.Hashtable.Sweep
import ZfsTest.Hashtable.Create
import ZfsTest.Hashtable.Copy
import ZfsTest.Hashtable.Held
import ZfsTest.Hashtable.Resize
import ZfsTest.Hashtable.Runs
import ZfsTest.Hashtable.Refine
import ZfsTest.Hashtable.Report
import ZfsTest.Hashtable.Order
import ZfsTest.Prog.Modular
import ZfsTest.Hashtable.Parts
import ZfsTest.Hashtable.Release
import ZfsTest.Hashtable.Size
import ZfsTest.Hashtable.Counters
import ZfsTest.Stf.Journal
import ZfsTest.Stf.Entries
import ZfsTest.Stf.Timeout
import ZfsTest.Text.Words
import ZfsTest.Stf.Filter
import ZfsTest.Stf.Context
import ZfsTest.Stf.Tags
import ZfsTest.Tcl.List
import ZfsTest.Tcl.Expr
import ZfsTest.Mstf.Syncserv
import ZfsTest.Mstf.Barrier
import ZfsTest.Mstf.Vars
import ZfsTest.Mstf.Launch
import ZfsTest.Shell.Words
import ZfsTest.Prog.Choices
import ZfsTest.Runwattr.Quote
import ZfsTest.Stf.Testgen
import ZfsTest.Stf.Product
import ZfsTest.Hashtable.Fills
import ZfsTest.Hashtable.Client
import ZfsTest.Smf.Wait
import ZfsTest.Logapi.Logfile
import ZfsTest.Stf.Paired
import ZfsTest.Stf.Silent
import ZfsTest.Stf.Select
import ZfsTest.Nfs.Faithful
import ZfsTest.Backup.Files
import ZfsTest.Num.Signed
import ZfsTest.Text.Strtol
import ZfsTest.Stf.Name
import ZfsTest.Stf.Limit
import ZfsTest.Stf.Poll
import ZfsTest.Stf.Buffer
import ZfsTest.Hashtable.Unread
import ZfsTest.Hashtable.Memory
import ZfsTest.Jnl.Buffer
import ZfsTest.Hashtable.Retry
import ZfsTest.Text.CArray
import ZfsTest.Mstf.Getvar
import ZfsTest.Search.Probe
import ZfsTest.Text.Casecmp
import ZfsTest.Jnl.Level
import ZfsTest.Jnl.Vlog
import ZfsTest.Stf.Compare
import ZfsTest.Stf.Caseblock
import ZfsTest.Stf.Checker
import ZfsTest.Stf.Code
import ZfsTest.Stf.Layout
import ZfsTest.Stf.Compare3
import ZfsTest.Stf.Verbose
import ZfsTest.Prog.Loop
import ZfsTest.Prog.Acyclic
import ZfsTest.Libtest.Fill
import ZfsTest.Libtest.Cleanup
import ZfsTest.Tcl.Arith
import ZfsTest.Tcl.Split
import ZfsTest.Mstf.Stamp
import ZfsTest.Libtest.Random
import ZfsTest.Stf.Formatstrings
import ZfsTest.Stf.Continue
import ZfsTest.Stf.Varopts
import ZfsTest.Libtest.Device
import ZfsTest.Hashtable.Keyword
import ZfsTest.Tcl.Reader
import ZfsTest.Tcl.Rejoin
import ZfsTest.Tcl.Lossless
import ZfsTest.Mstf.Paths
import ZfsTest.Text.Fenced
import ZfsTest.Stf.Wordset
import ZfsTest.Stf.Wordforce
import ZfsTest.Stf.Wordcut
import ZfsTest.Stf.Depend
import ZfsTest.Stf.Proto
import ZfsTest.Stf.Lookup
import ZfsTest.Shell.Echo
import ZfsTest.Shell.Getopts
import ZfsTest.Shell.Read
import ZfsTest.Stf.Addassert
import ZfsTest.Shell.Fields
import ZfsTest.Shell.Records
import ZfsTest.Shell.Saved
import ZfsTest.Shell.Exports
import ZfsTest.Stf.Varsfile
import ZfsTest.Stf.Profile
import ZfsTest.Shell.Passed
import ZfsTest.Libtest.Wrapper
import ZfsTest.Nfs.Wait
import ZfsTest.Fs.Snapused
import ZfsTest.Fs.Cksum
import ZfsTest.Shell.Redirect
import ZfsTest.Fs.Rsend
import ZfsTest.Text.Last
import ZfsTest.Fs.Redundancy
import ZfsTest.Fs.Mktree
import ZfsTest.Fs.FileTrunc
import ZfsTest.Text.Grep
import ZfsTest.Fs.History
import ZfsTest.Nfs.Property
import ZfsTest.Fs.Delegate
import ZfsTest.Fs.Granted
import ZfsTest.Fs.Renamed
import ZfsTest.Fs.Leftover
import ZfsTest.Fs.Slog
import ZfsTest.Fs.Slogdev
import ZfsTest.Prog.Meeting
import ZfsTest.Mstf.Session
import ZfsTest.Mstf.Refine
import ZfsTest.Mstf.Moves
import ZfsTest.Mstf.Lockstep
import ZfsTest.Mstf.Ends
import ZfsTest.Stf.Merge
import ZfsTest.Stf.Regress
import ZfsTest.Logapi.Script
import ZfsTest.Logapi.Endlog
import ZfsTest.Logapi.Required
import ZfsTest.Logapi.Chain
