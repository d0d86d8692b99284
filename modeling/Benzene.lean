import Benzene.Data.Dict
import Benzene.Data.Text
import Benzene.Data.Sha256
import Benzene.Data.Py
import Benzene.Data.Unicode
import Benzene.Data.Json
import Benzene.Results.Status
import Benzene.Results.Result
import Benzene.Mesh.SpecDoc
import Benzene.Mesh.Issues
import Benzene.Mesh.Catalog
import Benzene.Mesh.Ingest
import Benzene.Mesh.Query
import Benzene.Mesh.Merge
import Benzene.Mesh.Graph
import Benzene.Mesh.Unasserted
import Benzene.Mesh.Drift
import Benzene.Mesh.IssueCounts
import Benzene.Data.JsonRoundTrip
import Benzene.Data.WellFormed
import Benzene.Mesh.Restore
import Benzene.Mesh.Totality
import Benzene.Core.Envelope
import Benzene.Core.Settlement
import Benzene.Data.Rfc3339
import Benzene.Data.Transition
import Benzene.Data.Utf8
import Benzene.Http.Invoke
import Benzene.Mesh.Inbox
import Benzene.Mesh.Instants
import Benzene.Mesh.Poller
import Benzene.Mesh.Store
import Benzene.Resilience.Policies
import Benzene.Resilience.Stack
import Benzene.Contract.Closure
import Benzene.Contract.Entries
import Benzene.Contract.Narrowing
import Benzene.Contract.RoundTrip
import Benzene.Contract.Scope
import Benzene.Contract.Alike
import Benzene.Contract.Invariance
import Benzene.Core.Registration
import Benzene.Core.Wire
import Benzene.Http.App
import Benzene.Resilience.Breaker
import Benzene.Resilience.Idempotency
import Benzene.Transport.Consumers
import Benzene.Transport.Lambda
import Benzene.Contract.Hoisting
import Benzene.Contract.HoistingDepth
import Benzene.Contract.Derivation
import Benzene.Contract.DerivedDocument
import Benzene.Contract.SelfContained
import Benzene.Core.Dependencies
import Benzene.Core.LastRegistration
import Benzene.Core.Worker
import Benzene.Mesh.ErrorDetail
import Benzene.Resilience.Bulkhead
import Benzene.Data.Encodable
import Benzene.Mesh.Artifacts
import Benzene.Mesh.Buildable
import Benzene.Mesh.PublishedTexts
import Benzene.Transport.AwsClients
import Benzene.Core.Casting
import Benzene.Core.Durations
import Benzene.Core.FlatDataclass
import Benzene.Core.HighestVersion
import Benzene.Core.Pointers
import Benzene.Transport.GrpcDetails
import Benzene.Data.Rounding
import Benzene.Data.Decimal
import Benzene.Data.PyFloat
import Benzene.Data.StableSort
import Benzene.Mesh.Asyncapi
import Benzene.Mesh.Failures
import Benzene.Mesh.Flows
import Benzene.Codegen.Client
import Benzene.Codegen.ContractFields
import Benzene.Data.Unfold
import Benzene.Http.Matching
import Benzene.Mesh.XRay
import Benzene.OpenApi.Generator
import Benzene.Resilience.RateLimit
import Benzene.Resilience.Saga
import Benzene.Transport.QueueStorage
import Benzene.Contract.Described
import Benzene.Contract.Published
import Benzene.Contract.Contexts
import Benzene.Contract.DerivedClosed
import Benzene.Contract.OrderFree
import Benzene.Contract.Termination
import Benzene.Contract.Reordering
import Benzene.Contract.Generics
import Benzene.Contract.Instances
import Benzene.Contract.Collision
import Benzene.Data.JsonSchema
import Benzene.Contract.Inhabits
import Benzene.Contract.Accepted
import Benzene.Contract.PayloadSchema
import Benzene.Contract.Validated
import Benzene.Contract.Dereferenced
import Benzene.Contract.Admits
import Benzene.Contract.Shared
import Benzene.Contract.Marshaled
import Benzene.Mesh.Tracing
import Benzene.Mesh.CallTree
import Benzene.Mesh.Observed
import Benzene.Mesh.Ingested
import Benzene.Mesh.Topology
import Benzene.Contract.Served
import Benzene.Mesh.Enrolled
import Benzene.Transport.Sqs
