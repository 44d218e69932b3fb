import Db3w.Lib.Falling
import Db3w.Lib.MTree
import Db3w.Ndx.Btree
import Db3w.Ndx.CharKey
import Db3w.Ndx.Cursor
import Db3w.Ndx.Insert
import Db3w.Ndx.InsertNew
import Db3w.Dbf.Append
import Db3w.Dbf.Commit
import Db3w.Dbf.Header
import Db3w.Dbf.Indexes
import Db3w.Dbf.Pack
import Db3w.Dbf.PackMemo
import Db3w.Dbf.UndoFile
import Db3w.Dbf.Rollback
import Db3w.Ndx.Delete
import Db3w.Ndx.Header
import Db3w.Ndx.RemoveOld
import Db3w.Ndx.Search
import Db3w.Ndx.Seek
import Db3w.Lib.Binary64
import Db3w.Ndx.KeyValue
import Db3w.Ndx.Pool
import Db3w.Dbf.Texts
import Db3w.Ndx.KeyOrder
import Db3w.Dbf.TransEnd
import Db3w.Hb.Balance
import Db3w.Hb.Cond
import Db3w.Hb.Object
import Db3w.Ndx.Qcomp
import Db3w.Tli.Downstream
import Db3w.Tli.Upstream
import Db3w.Dbf.Field
import Db3w.Dbf.Fio
import Db3w.Dbf.Navigate
import Db3w.Dbf.Relation
import Db3w.Dbf.SkipRel
import Db3w.Hb.DateText
import Db3w.Hb.Mvar
import Db3w.Hb.MvarDecs
import Db3w.Hb.MvarStore
import Db3w.Lib.MergePass
import Db3w.Lib.Slots
import Db3w.Ndx.Vsort
import Db3w.Ndx.VsortMerge
import Db3w.Dbf.SkipRun
import Db3w.Dbf.FilePath
import Db3w.Dbf.FormFn
import Db3w.Hb.Compare
import Db3w.Hb.Inlist
import Db3w.Hb.MinMax
import Db3w.Hb.Round
import Db3w.Hb.Spell
import Db3w.Hb.Strings
import Db3w.Cgi.HtmlEncode
import Db3w.Dbf.Batch
import Db3w.Dbf.MetaHdr
import Db3w.Dbf.IndexRun
import Db3w.Hb.Keywords
import Db3w.Hb.ProcLib
import Db3w.Hb.Serial
import Db3w.Hb.Control
import Db3w.Hb.ControlCode
import Db3w.Hb.Linking
import Db3w.Hb.ControlOk
import Db3w.Hb.Library
import Db3w.Hb.ExecProc
import Db3w.Hb.ExecOk
import Db3w.Lib.Stepping
import Db3w.Lib.Structured
import Db3w.Ndx.Qsort
import Db3w.Ndx.Qindex
import Db3w.Ndx.BuildIndex
import Db3w.Ndx.Numbered
import Db3w.Ndx.SlowIndex
import Db3w.Tli.MemoApi
