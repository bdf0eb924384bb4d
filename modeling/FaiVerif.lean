import FaiVerif.Collections.HashDictBuilt
import FaiVerif.Collections.OrderedRuns
import FaiVerif.Csv.ReadBack
import FaiVerif.Core.BoundsRun
import FaiVerif.Encoding.Exact
import FaiVerif.Package.Resolution
import FaiVerif.Rc.BorrowFix
import FaiVerif.Rc.ForwardLinear
import FaiVerif.Rc.OwnedBalance
import FaiVerif.Rc.VerifyRuns
import FaiVerif.Wire.FingerprintKey
import FaiVerif.Wire.RoundTrip
import FaiVerif.Scheduler.Delivery
import FaiVerif.Scheduler.Cancellation
import FaiVerif.Lib.Utf8Bytes
import FaiVerif.Lib.Gregorian
import FaiVerif.Datetime.Grammar
import FaiVerif.Datetime.LocalDateExact
import FaiVerif.Syntax.Lexing
import FaiVerif.Syntax.Offside
import FaiVerif.Regex.Exact
import FaiVerif.Lower.RecordOrder
import FaiVerif.Core.Reassoc
import FaiVerif.Rc.AnfFresh
import FaiVerif.Rc.AliasMeaning
import FaiVerif.Rc.SharedBoxesMeaning
import FaiVerif.Core.NicheWords
import FaiVerif.Rc.IntAddMeaning
import FaiVerif.Core.Purity
import FaiVerif.Core.PurityMeaning
import FaiVerif.Lib.Outcomes
import FaiVerif.Lib.Segments
import FaiVerif.Collections.ArraySort
import FaiVerif.Collections.ArraySortExact
import FaiVerif.Collections.ListSort
import FaiVerif.Collections.ListSortExact
import FaiVerif.Collections.StructuralSort
import FaiVerif.Lib.Components
import FaiVerif.Resolve.Tarjan
import FaiVerif.Resolve.TarjanExact
import FaiVerif.Resolve.Scc
import FaiVerif.Resolve.SccExact
import FaiVerif.Lib.Limbs
import FaiVerif.Decimal.Natural
import FaiVerif.Decimal.NaturalExact
import FaiVerif.Decimal.NaturalText
import FaiVerif.Decimal.NaturalPowers
