import DNSentinel.Lib.Buffer
import DNSentinel.Lib.Outcome
import DNSentinel.Lib.Potential
import DNSentinel.Lib.Runs
import DNSentinel.Lib.Tokens
import DNSentinel.Policy.Addresses
import DNSentinel.Policy.Lists
import DNSentinel.Policy.RateLimits
import DNSentinel.Resolver.Callbacks
import DNSentinel.Resolver.Coalescing
import DNSentinel.Resolver.Limits
import DNSentinel.Resolver.Provenance
import DNSentinel.Resolver.Results
import DNSentinel.Resolver.Termination
import DNSentinel.Server.Answers
import DNSentinel.Server.Processor
import DNSentinel.Store.Calls
import DNSentinel.Store.Contents
import DNSentinel.Store.Model
import DNSentinel.Types
import DNSentinel.Wire.ParserSound
import DNSentinel.Wire.RoundTrip
import DNSentinel.Store.Accounting
import DNSentinel.Store.Recall
import DNSentinel.Resolver.CnameLimit
import DNSentinel.Resolver.FromCache
import DNSentinel.Lib.SortedRuns
import DNSentinel.Policy.TrieBuild
import DNSentinel.Policy.Agreement
import DNSentinel.Policy.Overflow
import DNSentinel.Server.Serving
import DNSentinel.Resolver.Upstream
import DNSentinel.Policy.Reload
import DNSentinel.Resolver.DeadEnd
import DNSentinel.Net.Connections
import DNSentinel.Server.TcpServing
import DNSentinel.Lib.Metering
import DNSentinel.Lib.Tables
import DNSentinel.Lib.Lanes
import DNSentinel.Policy.Stamps
import DNSentinel.Lib.Windows
import DNSentinel.Policy.Buckets
import DNSentinel.Wire.Presentation
import DNSentinel.Policy.Responses
import DNSentinel.Policy.Subnets
import DNSentinel.Lib.OrderedMaps
import DNSentinel.Net.Timers
import DNSentinel.Resolver.Standing
import DNSentinel.Store.Recency
import DNSentinel.Policy.Sources
import DNSentinel.Resolver.TcpReplies
import DNSentinel.Wire.FirstQuestion
import DNSentinel.Resolver.CaseEcho
import DNSentinel.Resolver.Sections
import DNSentinel.Server.Rebinding
import DNSentinel.Wire.Extension
import DNSentinel.Wire.Compression
import DNSentinel.Lib.Walks
import DNSentinel.Policy.Cloaking
import DNSentinel.Net.ConnectionLimits
import DNSentinel.Lib.Streams
import DNSentinel.Net.Framing
import DNSentinel.Wire.Refusal
import DNSentinel.Resolver.Retries
import DNSentinel.Lib.Aligned
import DNSentinel.Wire.SharedCase
import DNSentinel.Store.SharedCase
import DNSentinel.Resolver.SharedCase
import DNSentinel.Resolver.Lockstep
import DNSentinel.Resolver.Pattern
import DNSentinel.Server.Pattern
import DNSentinel.Net.Dispatch
import DNSentinel.Net.Waiting
import DNSentinel.Net.Udp
import DNSentinel.Server.UdpServing
import DNSentinel.Net.Outgoing
import DNSentinel.Server.TcpAnswers
import DNSentinel.Server.Timely
