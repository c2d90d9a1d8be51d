import DNSentinel.Resolver.Deadlines
import DNSentinel.Server.Steps

/-! # How long a client of the server waits

A run of the server is a run of its resolver with other events around it, so the deadline of a resolution
is one for the queries that wait for it. -/

namespace DNSentinel.Server.Timely

open DNSentinel.Types Lib.Runs Resolver Resolver.Selection Resolver.Data Resolver.Core
open Resolver.Machine Resolver.Deadlines Resolver.Events Processor Serving Steps

variable {cfg : Config} {env : Random} {v v' : Service} {e : Serving.Event} {es : List Serving.Event}
  {n asked : ℕ} {a : Arrival}

/-- The query was taken when the clock of the resolver had the given time. -/
structure Taken (n asked : ℕ) (a : Arrival) (v : Service) : Prop where
  known : n < v.nextQuery
  handled : .handled n a ∈ v.log
  since : ∀ cb, .asked n cb ∈ v.log → Since cb asked (.idle, v.resolver)

/-- A question to which no server replies. -/
def ask : Message := { header := { id := 7 }, questions := [⟨letter 97, RRType.A, kClassIN⟩] }

end DNSentinel.Server.Timely
