import Eshkol.Native.Spelling
import Eshkol.Native.HashTableLoad
import Eshkol.Native.WalkDeep
import Eshkol.Native.UnifyTagged
import Eshkol.Vm.Rounding
import Eshkol.Vm.Arith
import Eshkol.Vm.HashTable
import Eshkol.Vm.PeepholeCorrect
import Eshkol.Vm.Inline
import Eshkol.Vm.PromiseList
import Eshkol.Vm.UnifyCorrect
import Eshkol.Eskb.Leb128
import Eshkol.Eskb.Emit
import Eshkol.Native.KbSave
import Eshkol.Native.KbRoundTrip
import Eshkol.Memory.Audit
import Eshkol.Vm.Resume
import Eshkol.Vm.Assignment
import Eshkol.Vm.Compile
import Eshkol.Native.StructuralEquality
import Eshkol.Vm.MacroExpand
import Eshkol.Frontend.MacroExpander
import Eshkol.Frontend.RenameScope
import Eshkol.Vm.ReadBack
import Eshkol.Vm.Strings
import Eshkol.Core.BlcUniversal
import Eshkol.Core.Base64Url
import Eshkol.Core.MsgPackCodec
import Eshkol.Core.Url
import Eshkol.Core.JsonSchemaValid
import Eshkol.Core.Csv
import Eshkol.Core.JsonStringify
import Eshkol.Core.JsonAccept
import Eshkol.Core.ContentStore
import Eshkol.Core.Counter
import Eshkol.Core.OrSet
import Eshkol.Core.LwwMap
import Eshkol.Core.RgaAppend
import Eshkol.Core.Cache
import Eshkol.Core.NumericExtras
import Eshkol.Core.RgaMerge
import Eshkol.Core.DbspIncremental
import Eshkol.Vm.Power
import Eshkol.Vm.CompareAgree
import Eshkol.Vm.Shift
import Eshkol.Vm.Popcount
import Eshkol.Vm.DecimalAgree
import Eshkol.Math.FixedDivide
import Eshkol.Math.FixedConvert
import Eshkol.Math.Int128Text
import Eshkol.Core.PriorityQueue
import Eshkol.Core.Channels
import Eshkol.Types.ConstExpr
import Eshkol.Types.Supertype
import Eshkol.Pkg.Manifest
import Eshkol.Native.SymbolIntern
