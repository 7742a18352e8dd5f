import Heirloom.Dc.Count
import Heirloom.Dc.Power
import Heirloom.Dc.Sqrt
import Heirloom.Dc.Base
import Heirloom.Dc.Registers
import Heirloom.Diff.Unified
import Heirloom.Diff.CheckSb
import Heirloom.Diff.Longest
import Heirloom.Diff.Ifdef
import Heirloom.Tsort.Order
import Heirloom.Cpio.Zip
import Heirloom.Cpio.TarName
import Heirloom.Cpio.Copy
import Heirloom.Cpio.Input
import Heirloom.Cpio.Inodes
import Heirloom.Cpio.Block
import Heirloom.Cpio.Ascii
import Heirloom.Cpio.Numbers
import Heirloom.Cpio.Batches
import Heirloom.Sccs.Rmdel
import Heirloom.Sccs.Encode
import Heirloom.Sccs.Deltab
import Heirloom.Sccs.Setup
import Heirloom.Uxre.Exec
import Heirloom.Uxre.Links
import Heirloom.Uxre.Written
import Heirloom.Libcommon.Oblok
import Heirloom.Filters.Joined
import Heirloom.Filters.Settab
import Heirloom.Filters.Comm
import Heirloom.M4.Runs
import Heirloom.M4.Limits
import Heirloom.Diff.Bdiff
import Heirloom.Diff3.Edscript
import Heirloom.Spell.Hashlook
import Heirloom.Lex.Yylook
import Heirloom.Sorting.Check
import Heirloom.Cpio.Fits
import Heirloom.Filters.Complement
import Heirloom.Uxre.Bktexec
import Heirloom.Uxre.Escape
import Heirloom.Uxre.Newctxt
import Heirloom.Uxre.Firstop
import Heirloom.Arith.Expr
import Heirloom.Arith.Factor
import Heirloom.Libcommon.Shellpat
import Heirloom.Filters.Joinfield
import Heirloom.Lex.Cclinter
import Heirloom.Yacc.Cpfir
import Heirloom.Dc.Log
import Heirloom.Sorting.Setfil
import Heirloom.Spell.Huffcode
import Heirloom.Chmod.Clauses
import Heirloom.Filters.Foldline
import Heirloom.Filters.Endtail
import Heirloom.Sh.Cwd
import Heirloom.Sorting.Merged
import Heirloom.Sorting.Sort
