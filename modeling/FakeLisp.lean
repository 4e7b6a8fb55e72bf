import FakeLisp.BigIntDiv
import FakeLisp.BigIntParse
import FakeLisp.BigIntCharBuf
import FakeLisp.BigIntDecBuffer
import FakeLisp.VMNumSum
import FakeLisp.VMNumProduct
import FakeLisp.MakeIns
import FakeLisp.PeepholeVarRef
import FakeLisp.PeepholeConstRight
import FakeLisp.VMGcCollect
import FakeLisp.GrammerFirst
import FakeLisp.GrammerFirstCache
import FakeLisp.Lr0Canonical
import FakeLisp.ParserBound
import FakeLisp.CompSplit
import FakeLisp.StackCircle
import FakeLisp.ParserEnds
import FakeLisp.JmpTarget
import FakeLisp.AnalysisTableDet
import FakeLisp.ChanlFifo
import FakeLisp.BucketChains
import FakeLisp.CgEnvSlots
import FakeLisp.HashMapRefine
import FakeLisp.LiteralRoundTrip
import FakeLisp.VMValueHash
import FakeLisp.MacroList
import FakeLisp.PatternBind
import FakeLisp.ValueTableIds
import FakeLisp.ObarrayInterns
import FakeLisp.LoadLib
import FakeLisp.VarRefShare
import FakeLisp.GrammerMergeUnion
import FakeLisp.ImportRelocRight
import FakeLisp.ReExportRight
import FakeLisp.RawString
import FakeLisp.RmacroActualLen
import FakeLisp.FileReader
import FakeLisp.RmacroAction
import FakeLisp.RuleKept
import FakeLisp.PgTextRight
import FakeLisp.RmacroAccepted
import FakeLisp.VMDivision
import FakeLisp.BigIntRange
import FakeLisp.GrammerAdditions
import FakeLisp.ExportIndex
import FakeLisp.JmpBack
import FakeLisp.MacroExpand
import FakeLisp.MacroExpandChain
import FakeLisp.PlacedMap
import FakeLisp.CgWorld
import FakeLisp.CgProto
import FakeLisp.CgWorldRefs
import FakeLisp.CgProtoResolve
import FakeLisp.CgWorldRun
import FakeLisp.CgProtoLayout
import FakeLisp.CgImportRight
import FakeLisp.LineTableConcat
import FakeLisp.LineTableIns
import FakeLisp.LineTableBuffer
import FakeLisp.FollowChain
import FakeLisp.IsList
import FakeLisp.TailCall
import FakeLisp.ImportFixup
import FakeLisp.CircleRef
import FakeLisp.CircleRefRight
import FakeLisp.PeepholePass
import FakeLisp.PeepholeEnds
import FakeLisp.CharClass
import FakeLisp.CharClassRight
import FakeLisp.CharClassSizes
import FakeLisp.RegexCompile
import FakeLisp.RegexPieces
import FakeLisp.RegexCount
import FakeLisp.RegexEmit
import FakeLisp.RegexRight
import FakeLisp.RegexMatchEnds
import FakeLisp.StringCmp
import FakeLisp.CellPath
import FakeLisp.PairAppend
import FakeLisp.PathComps
import FakeLisp.ByteBuf
import FakeLisp.NormpathRight
import FakeLisp.Relpath
import FakeLisp.ClassWords
import FakeLisp.NumberWords
import FakeLisp.NumbersRight
import FakeLisp.Utf8Len
import FakeLisp.BytesLiteral
import FakeLisp.ProcessArgs
import FakeLisp.CheckArg
import FakeLisp.RunCode
import FakeLisp.SequenceExp
import FakeLisp.AndOrExp
import FakeLisp.I64Overflow
import FakeLisp.CgAction
import FakeLisp.ValueFileEqual
import FakeLisp.LalrItemsRight
import FakeLisp.ParserSound
