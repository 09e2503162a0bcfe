import Guatiao.Schema.RefsBudget
import Guatiao.Schema.RefsInlined
import Guatiao.Bridge.Builds
import Guatiao.Bridge.ManifestName
import Guatiao.Bridge.Returned
import Guatiao.Intake.Create
import Guatiao.Intake.Layout
import Guatiao.Intake.ReadBack
import Guatiao.Intake.Sensitive
import Guatiao.Library.BooksKept
import Guatiao.Library.Description
import Guatiao.Library.JsonExact
import Guatiao.Library.Rebuild
import Guatiao.Link.Exports
import Guatiao.Link.GateOrder
import Guatiao.Link.Late
import Guatiao.Link.Lent
import Guatiao.Link.Marker
import Guatiao.Link.Nested
import Guatiao.Link.PoolRuns
import Guatiao.Link.Unsent
import Guatiao.Merge.Pointwise
import Guatiao.Merge.Spelling
import Guatiao.Merge.Union
import Guatiao.Rdma.Streams
import Guatiao.Remote.Admission
import Guatiao.Remote.ArgsCodec
import Guatiao.Remote.Openings
import Guatiao.Remote.RingStream
import Guatiao.Schema.Negated
import Guatiao.Schema.Planned
import Guatiao.Schema.Root
import Guatiao.Schema.Secrecy
import Guatiao.Schema.Steps
import Guatiao.Serde.Base64
import Guatiao.Serde.Numbers
import Guatiao.Table.LentHandle
import Guatiao.Value.Friendly
import Guatiao.Value.MapOps
import Guatiao.Value.Moved
import Guatiao.Value.Stamp
import Guatiao.Wire.Channel
import Guatiao.Wire.KeyRuns
import Guatiao.Wire.Length
