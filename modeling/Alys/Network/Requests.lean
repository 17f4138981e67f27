import Alys.Basic.Types

/-!
# Requests of the RPC protocol

Model of `Protocol` and of the requests in `app/src/network/rpc`. `InboundRequest` and
`OutboundRequest` have the same variants and the same functions on them. What a request carries is
kept where it is read.
-/

namespace Alys

/-- `libp2p::PeerId`. -/
abbrev PeerId := Nat

inductive Protocol where
  | status
  | goodbye
  | blocksByRange
  | ping
  | metaData
  deriving DecidableEq

structure BlocksByRangeRequest where
  /-- the height to start from -/
  startHeight : Nat
  /-- the number of blocks from there, as the peer chooses it -/
  count : Nat
  deriving DecidableEq

/-- `InboundRequest` and `OutboundRequest`. -/
inductive RPCRequest where
  | status (finalizedHash headHash : Hash256)
  | goodbye (reason : Nat)
  | blocksByRange (req : BlocksByRangeRequest)
  | ping (data : Nat)
  | metaData
  deriving DecidableEq

/-- `versioned_protocol().protocol()`. -/
def RPCRequest.protocol : RPCRequest → Protocol
  | .status .. => .status
  | .goodbye _ => .goodbye
  | .blocksByRange _ => .blocksByRange
  | .ping _ => .ping
  | .metaData => .metaData

/-- The number of responses expected for a request. -/
def RPCRequest.expectedResponses : RPCRequest → Nat
  | .status .. => 1
  | .goodbye _ => 0
  | .blocksByRange req => req.count
  | .ping _ => 1
  | .metaData => 1

end Alys
