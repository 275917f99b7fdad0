import Pdjs.Activations
import Pdjs.Cycles
import Pdjs.DecimalText
import Pdjs.Destinations
import Pdjs.Dispatch
import Pdjs.Flattening
import Pdjs.FloatFormats
import Pdjs.GuardedRuns
import Pdjs.HandleLifeCycle
import Pdjs.Lifetimes
import Pdjs.Marshalling
import Pdjs.MessageContext
import Pdjs.ObjectReferences
import Pdjs.ObjectRegistry
import Pdjs.PatchCords
import Pdjs.PdAtoms
import Pdjs.Ports
import Pdjs.RootedGraphs
import Pdjs.RoundTrip
import Pdjs.Sending
import Pdjs.TextEncoding
import Pdjs.Transport
import Pdjs.WeakHandles
import Pdjs.Addresses
import Pdjs.Spelling
import Pdjs.Grouping
import Pdjs.Loading
import Pdjs.Resizing
import Pdjs.Recompiling
import Pdjs.OutletNumbers
import Pdjs.Properties
import Pdjs.PropertyReads
import Pdjs.Recognition
import Pdjs.ReadFile
import Pdjs.Requiring
import Pdjs.Engine
import Pdjs.Printing
import Pdjs.ThrowingReads
import Pdjs.Handlers
import Pdjs.Decoding
import Pdjs.Deliveries
import Pdjs.Forwarding
import Pdjs.DataProperties
import Pdjs.Interceptors
import Pdjs.Nesting
import Pdjs.PropertyRuns
import Pdjs.TextRepair
import Pdjs.Sharing
import Pdjs.LoadErrors
