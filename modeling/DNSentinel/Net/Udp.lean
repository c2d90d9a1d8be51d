import DNSentinel.Policy.Addresses
import DNSentinel.Wire.Datagram
import DNSentinel.Wire.Refusal

/-! # The UDP listener

`udp_listener.cpp`: what a datagram brings with it, and what goes out with a response. The loop of
`on_readable` calls the handler, so it is in `Server.UdpServing`. -/

namespace DNSentinel.Net.Udp

open DNSentinel.Types Policy.Addresses Wire.Builder Wire.Parser Wire.Edns Wire.RoundTrip
open Wire.Refusal

def kMaxPacketsPerWakeup : ℕ := 64

/-- `sockaddr_storage`; the scope is that of IPv6 addresses. -/
structure Peer where
  addr : SockAddr
  port : UInt16
  scope : UInt32 := 0
deriving DecidableEq

/-- `in_pktinfo` -/
structure InPktinfo where
  ifindex : UInt32
  specDst : UInt32
  addr : UInt32
deriving DecidableEq

/-- `in6_pktinfo` -/
structure In6Pktinfo where
  addr : { l : List UInt8 // l.length = 16 }
  ifindex : UInt32
deriving DecidableEq

/-- A control message. -/
inductive Cmsg where
  | pktinfo (info : InPktinfo)
  | pktinfo6 (info : In6Pktinfo)
  | other
deriving DecidableEq

inductive LocalAddress where
  | unknown
  | inet (info : InPktinfo)
  | inet6 (info : In6Pktinfo)
deriving DecidableEq

/-- The address a query arrived on. -/
def readLocalAddress : List Cmsg → LocalAddress
  | [] => .unknown
  | .pktinfo info :: _ => .inet info
  | .pktinfo6 info :: _ => .inet6 info
  | .other :: rest => readLocalAddress rest

/-- The control message that goes out. -/
def control : LocalAddress → Option Cmsg
  | .unknown => none
  -- routing picks the interface
  | .inet info => some (.pktinfo { info with ifindex := 0 })
  -- link-local sources need the interface
  | .inet6 info => some (.pktinfo6 info)

/-- The source address that a control message asks for. -/
def Cmsg.source : Cmsg → Option SockAddr
  | .pktinfo info => some (.inet info.specDst)
  | .pktinfo6 info => some (.inet6 info.addr)
  | .other => none

/-- A datagram from `recvmsg`. -/
structure Datagram where
  bytes : List UInt8
  peer : Peer
  control : List Cmsg := []
deriving DecidableEq

/-- What is given to `sendmsg`. -/
structure Outgoing where
  bytes : List UInt8
  peer : Peer
  control : Option Cmsg
deriving DecidableEq

/-- What the responder has captured. -/
structure Responder where
  peer : Peer
  localAddress : LocalAddress
  maxSize : UInt16

/-- The responder for a query. -/
def responderFor (maxResponseSize : UInt16) (d : Datagram) (query : Message) : Responder where
  peer := d.peer
  localAddress := readLocalAddress d.control
  maxSize := maxUdpResponseSize query.edns maxResponseSize

/-- What `Socket::send` sends. -/
def Responder.outgoing (r : Responder) (response : Message) : Outgoing where
  bytes := build response { maxSize := r.maxSize }
  peer := r.peer
  control := Udp.control r.localAddress

structure UdpListenerStats where
  queries : ℕ := 0
  droppedMalformed : ℕ := 0
  droppedResponses : ℕ := 0
  responsesSent : ℕ := 0
  sendErrors : ℕ := 0
deriving DecidableEq

/-- What `recvmsg` returns, and what then comes of a query: when the handler reads the clock, and whether
a response that it sends at once goes out. -/
inductive Recv where
  | datagram (d : Datagram) (now later : ℕ) (works : Bool)
  /-- EAGAIN -/
  | again
  | error

/-! ### Kinds of datagrams -/

def isMalformed (d : Datagram) : Bool :=
  match parse d.bytes with
  | .ok _ => false
  | .error _ => true

def isResponse (d : Datagram) : Bool :=
  match parse d.bytes with
  | .ok m => m.header.qr
  | .error _ => false

def isQuery (d : Datagram) : Bool :=
  match parse d.bytes with
  | .ok m => !m.header.qr
  | .error _ => false

end DNSentinel.Net.Udp
