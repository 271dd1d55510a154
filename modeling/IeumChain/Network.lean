import IeumChain.Communication
import IeumChain.Wire

/-!
# What other peers send (`peer_guard.rs`, `network.rs`)

The task of the network takes events of the swarm, keeps a score of every peer and passes what
decodes on to the node. A peer that sends too much that does not is ignored for some time. It also
learns the addresses at which peers can be reached, and tells the routing table of those it accepts.

* Peer ids stand as the texts they have, and instants are numbers;
* the commands to the swarm are kept with the events for the node, in the order they are made, and
  so are the calls on the guard;
* what is only logged is left out, and that the node stops to listen.
-/

namespace IeumChain

open Lib

/-! ## The guard -/

/-- `BAN_SCORE`. -/
def banScore : ℤ := 100

inductive PeerDecision where
  | allow
  | temporarilyBlocked
deriving DecidableEq

structure PeerRecord where
  score : ℤ
  blockedUntil : Option ℕ
deriving DecidableEq

structure PeerGuard where
  peers : HashMap String PeerRecord
  banDuration : ℕ

namespace PeerGuard

/-- `i32::saturating_add`. -/
def saturatingAdd (a b : ℤ) : ℤ := max (-2 ^ 31) (min (2 ^ 31 - 1) (a + b))

/-- `PeerGuard::new`. -/
def new (banDuration : ℕ) : PeerGuard := ⟨∅, banDuration⟩

/-- `check`: a block that is over is lifted, and the score with it. -/
def check (guard : PeerGuard) (peer : String) (now : ℕ) : PeerDecision × PeerGuard :=
  match guard.peers.lookup peer with
  | none => (.allow, guard)
  | some record =>
    match record.blockedUntil with
    | none => (.allow, guard)
    | some deadline =>
      if now < deadline then (.temporarilyBlocked, guard)
      else (.allow, { guard with peers := guard.peers.insert peer ⟨0, none⟩ })

/-- `penalize`: a block that runs starts anew. -/
def penalize (guard : PeerGuard) (peer : String) (points : ℤ) (now : ℕ) :
    PeerDecision × PeerGuard :=
  let record := (guard.peers.lookup peer).getD ⟨0, none⟩
  let score := saturatingAdd record.score (max points 0)
  if banScore ≤ score then
    (.temporarilyBlocked,
      { guard with peers := guard.peers.insert peer ⟨score, some (now + guard.banDuration)⟩ })
  else (.allow, { guard with peers := guard.peers.insert peer { record with score } })

/-- `reward`. -/
def reward (guard : PeerGuard) (peer : String) : PeerGuard :=
  match guard.peers.lookup peer with
  | none => guard
  | some record =>
    let score := max (record.score - 1) 0
    { guard with peers := guard.peers.insert peer { record with score } }

end PeerGuard

/-! ## Addresses -/

/-- The octets of an IPv4 address. -/
structure Ipv4 where
  a : UInt8
  b : UInt8
  c : UInt8
  d : UInt8
deriving DecidableEq

inductive IpAddr where
  | v4 (ip : Ipv4)
  | v6 (ip : BitVec 128)
deriving DecidableEq

/-- One component of a multiaddress. Of those that are not looked at the bytes are kept. -/
inductive Protocol where
  | ip4 (ip : Ipv4)
  | ip6 (ip : BitVec 128)
  | dns4 (domain : String)
  | p2p (peerId : String)
  | p2pCircuit
  | other (bytes : Bytes)
deriving DecidableEq

abbrev Multiaddr := List Protocol

/-- `is_lan_ipv4`. -/
def isLanIpv4 (ip : Ipv4) : Bool :=
  ip.a == 10 || (ip.a == 172 && (16 ≤ ip.b && ip.b ≤ 31)) || (ip.a == 192 && ip.b == 168) ||
    (ip.a == 169 && ip.b == 254) || (ip.a == 100 && (64 ≤ ip.b && ip.b ≤ 127))

/-- `is_public_ipv4`. Of the standard library's classes, loopback is `127/8`, multicast `224/4`,
and the unspecified and the broadcast address are one address each. -/
def isPublicIpv4 (ip : Ipv4) : Bool :=
  !(ip.a == 127) && !(ip == ⟨0, 0, 0, 0⟩) && !(ip == ⟨255, 255, 255, 255⟩) &&
    !(224 ≤ ip.a && ip.a ≤ 239) && !isLanIpv4 ip && ip.a != 0 && decide (ip.a < 224) &&
    !(ip.a == 192 && ip.b == 0) && !(ip.a == 198 && (ip.b == 18 || ip.b == 19)) &&
    !(ip.a == 198 && ip.b == 51) && !(ip.a == 203 && ip.b == 0)

/-- One component, in `accepts_learned_address`. -/
def acceptsProtocol (sameLanPeer : Bool) : Protocol → Bool
  | .ip4 ip => isPublicIpv4 ip || (sameLanPeer && isLanIpv4 ip)
  | .ip6 ip => !(ip == 1) && !(ip == 0)
  | _ => true

/-- `LocalNetworkView::accepts_learned_address`. -/
def acceptsLearnedAddress (address : Multiaddr) (sameLanPeer : Bool) : Bool :=
  address.all (acceptsProtocol sameLanPeer)

/-- The loop of `normalize_learned_address` over the components that are left: a relay in front of
them has been passed or not. -/
def normalizeFrom (peerId : String) : Bool → List Protocol → Option Multiaddr
  | _, [] => some []
  | _, .p2pCircuit :: rest => (normalizeFrom peerId true rest).map (.p2pCircuit :: ·)
  | afterCircuit, .p2p found :: rest =>
    if found = peerId ∧ rest = [] then some []
    else if afterCircuit then none
    else (normalizeFrom peerId afterCircuit rest).map (.p2p found :: ·)
  | afterCircuit, protocol :: rest =>
    (normalizeFrom peerId afterCircuit rest).map (protocol :: ·)

/-- `normalize_learned_address`. -/
def normalizeLearnedAddress (address : Multiaddr) (peerId : String) : Option Multiaddr :=
  if 1 < address.count .p2pCircuit then none
  else (normalizeFrom peerId false address).filter fun normalized => normalized ≠ []

/-- `lookup_host`, and the order in which `sort` puts addresses. -/
structure Resolver where
  lookupHost : String → Result (List IpAddr)
  sort : List Multiaddr → List Multiaddr
  sort_perm : ∀ addresses, (sort addresses).Perm addresses

/-- The domain that is looked up. -/
def dns4Domain : Protocol → Option String
  | .dns4 domain => some domain
  | _ => none

/-- `multiaddr_ip`. -/
def protocolIp : Protocol → Option IpAddr
  | .ip4 ip => some (.v4 ip)
  | .ip6 ip => some (.v6 ip)
  | _ => none

/-- A component, with an IPv4 address in place of a domain. -/
def replaceDns4 (ip : Ipv4) : Protocol → Protocol
  | .dns4 _ => .ip4 ip
  | protocol => protocol

/-- The IPv4 addresses of an answer. -/
def ipv4Of : IpAddr → Option Ipv4
  | .v4 ip => some ip
  | .v6 _ => none

/-- `resolve_dns4_addresses`. -/
def resolveDns4Addresses (resolver : Resolver) (address : Multiaddr) : Result (List Multiaddr) :=
  match address.findSome? dns4Domain with
  | none => .ok [address]
  | some domain => do
    let resolved ← (resolver.lookupHost domain).mapError fun error =>
      s!"[P2P DNS 조회 실패] 도메인: {domain}, 오류: {error}"
    let addresses := (resolved.filterMap ipv4Of).dedup
    ensure (addresses ≠ []) s!"[P2P DNS 조회 실패] 도메인 {domain}에서 IPv4 주소를 찾지 못했습니다."
    return resolver.sort (addresses.map fun ip => address.map (replaceDns4 ip))

/-! ## Events -/

structure CommunicationAck where
  messageId : String
  accepted : Bool
deriving DecidableEq

/-- What the swarm reports. Of a request it is known whether the answer to it can be sent. -/
inductive SwarmEvent where
  | mdnsDiscovered (peers : List (String × Multiaddr))
  | mdnsExpired (peers : List (String × Multiaddr))
  | identifyReceived (peerId : String) (listenAddrs : List Multiaddr)
  | gossipMessage (propagationSource : String) (source : Option String) (topic : String)
      (data : Bytes)
  | communicationRequest (peer : String) (request : CommunicationEnvelope) (answered : Bool)
  | communicationInboundFailure (peer : String)
  | connectionEstablished (peerId : String) (connectionId : ℕ) (remoteAddress : Multiaddr)
      (uniquePeers peerConnections : ℕ)
  | connectionClosed (peerId : String) (connectionId : ℕ) (remoteAddress : Multiaddr)
      (uniquePeers peerConnections : ℕ)
  | outgoingConnectionError (peerId : Option String) (connectionId : ℕ)

/-- What the node is told: the `NetworkEvent` of the source. -/
inductive PeerEvent where
  | peerDiscovered (peerId : String)
  | outgoingConnectionFailed (peerId : Option String) (connectionId : ℕ)
  | peerConnected (peerId : String) (remoteAddress : Multiaddr) (remoteIp : Option IpAddr)
      (connectionId uniquePeers peerConnections : ℕ)
  | peerDisconnected (peerId : String) (remoteAddress : Multiaddr) (remoteIp : Option IpAddr)
      (connectionId : ℕ) (connectedFor : Option ℕ) (uniquePeers peerConnections : ℕ)
  | blockReceived (source : String) (block : Block)
  | transactionReceived (source : String) (transaction : Transaction)
  | consensusReceived (source : String) (message : ConsensusMessage)
  | proposalReceived (source : String) (proposal : SignedProposal)
  | evidenceReceived (source : String) (evidence : DoubleVoteEvidence)
  | validatorRegistrationReceived (source : String) (registration : ValidatorRegistration)
  | nodeRewardRegistrationReceived (source : String) (registration : NodeRewardRegistration)
  | updateAvailableReceived (source : String) (version : String)
  | syncRequested (source : String) (requester : String) (fromHeight : UInt64)
  | syncReceived (source : String) (tip : SyncTip) (certificates : List FinalityCertificate)
  | communicationReceived (source : String) (envelope : CommunicationEnvelope)
deriving DecidableEq

/-- A call on the guard that changes a score. -/
inductive GuardCall where
  | penalize (peer : String) (points : ℤ)
  | reward (peer : String)
deriving DecidableEq

/-- What an event makes the task do. -/
inductive Effect where
  | guard (call : GuardCall)
  | tell (event : PeerEvent)
  | disconnect (peer : String)
  | sendResponse (peer : String) (ack : CommunicationAck)
  | addAddress (peer : String) (address : Multiaddr)
  | removeAddress (peer : String) (address : Multiaddr)
  | addExplicitPeer (peer : String)
  | removeExplicitPeer (peer : String)

/-- `SwarmEventContext`, and the node's own id. -/
structure SwarmContext where
  codec : WireCodec
  localPeerId : String
  maxMessageBytes : ℕ
  loopbackOnly : Bool

/-- What the task keeps between events. -/
structure P2pNode where
  guard : PeerGuard
  connectedAt : HashMap ℕ ℕ
  sameLanPeers : Finset String

/-- What an event is handled with: the clock, which may stand before 1970, and the name service. -/
structure Surroundings where
  instant : ℕ
  unixTime : Result UInt64
  resolver : Resolver

/-- How an event was handled. -/
structure Handled where
  result : Result Unit
  network : P2pNode
  effects : List Effect

namespace P2pNode

/-- `validate_direct_communication`. -/
def validateDirectCommunication (localPeerId source : String) (envelope : CommunicationEnvelope)
    (unixTime : Result UInt64) : Result Unit := do
  ensure (envelope.targetPeerId = localPeerId) "통신 메시지 대상 PeerId가 현재 노드와 다릅니다."
  ensure (envelope.senderPeerId = source) "통신 메시지 발신 PeerId가 실제 연결과 다릅니다."
  let now ← unixTime.mapError fun error => s!"시스템 시각 오류: {error}"
  envelope.validate now

/-- What the node is told of a message. An answer to another node's request is of no interest, and
a reward registration comes with the peer that signed the message. -/
def eventOf (localPeerId propagationSource messageSource : String) :
    WireMessage → Option PeerEvent
  | .block block => some (.blockReceived propagationSource block)
  | .transaction transaction => some (.transactionReceived propagationSource transaction)
  | .consensus message => some (.consensusReceived propagationSource message)
  | .proposal proposal => some (.proposalReceived propagationSource proposal)
  | .evidence evidence => some (.evidenceReceived propagationSource evidence)
  | .validatorRegistration registration =>
    some (.validatorRegistrationReceived propagationSource registration)
  | .nodeRewardRegistration registration =>
    some (.nodeRewardRegistrationReceived messageSource registration)
  | .updateAvailable version => some (.updateAvailableReceived propagationSource version)
  | .syncRequest requester fromHeight =>
    some (.syncRequested propagationSource requester fromHeight)
  | .syncResponse requester tip certificates =>
    if requester = localPeerId then some (.syncReceived propagationSource tip certificates)
    else none

/-- The guard takes a penalty. -/
def penalize (network : P2pNode) (peer : String) (points : ℤ) (now : ℕ) : P2pNode :=
  { network with guard := (network.guard.penalize peer points now).2 }

/-- The guard gives a reward. -/
def reward (network : P2pNode) (peer : String) : P2pNode :=
  { network with guard := network.guard.reward peer }

/-- The branch of gossip messages, behind the check of the guard. -/
def onGossipMessage (ctx : SwarmContext) (network : P2pNode) (now : ℕ) (propagationSource : String)
    (source : Option String) (topic : String) (data : Bytes) : Handled :=
  let messageSource := source.getD propagationSource
  let bytes := data.length
  if ctx.maxMessageBytes < bytes then
    { result := .error "최대 크기를 넘는 메시지를 보낸 피어를 차단했습니다."
      network := network.penalize propagationSource 100 now
      effects := [.guard (.penalize propagationSource 100), .disconnect propagationSource] }
  else
    match ctx.codec.decodeWireMessage data ctx.maxMessageBytes with
    | .error error =>
      { result := .error
          s!"해석할 수 없는 메시지입니다: peer={messageSource}, topic={topic}, bytes={bytes}, detail={error}"
        network := network.penalize propagationSource 25 now
        effects := [.guard (.penalize propagationSource 25)] }
    | .ok message =>
      let event := eventOf ctx.localPeerId propagationSource messageSource message
      { result := .ok ()
        network := network.reward propagationSource
        effects := .guard (.reward propagationSource) :: (event.map Effect.tell).toList }

/-- The branch of direct requests, behind the check of the guard. -/
def onCommunicationRequest (ctx : SwarmContext) (network : P2pNode) (surroundings : Surroundings)
    (peer : String) (request : CommunicationEnvelope) (answered : Bool) : Handled :=
  let accepted := isOk
    (validateDirectCommunication ctx.localPeerId peer request surroundings.unixTime)
  let judged := if accepted then network.reward peer
    else network.penalize peer 50 surroundings.instant
  let call := if accepted then GuardCall.reward peer else .penalize peer 50
  if answered then
    { result := .ok ()
      network := judged
      effects := [.guard call, .sendResponse peer ⟨request.id, accepted⟩] ++
        (if accepted then [.tell (.communicationReceived peer request)] else []) }
  else
    { result := .error "통신 신호 응답 전송에 실패했습니다."
      network := judged
      effects := [.guard call] }

/-- One address of `Mdns::Discovered`. -/
def onDiscovered (network : P2pNode) (entry : String × Multiaddr) : P2pNode × List Effect :=
  let (peer, address) := entry
  if acceptsLearnedAddress address true then
    ({ network with sameLanPeers := insert peer network.sameLanPeers },
      [.addExplicitPeer peer, .addAddress peer address, .tell (.peerDiscovered peer)])
  else (network, [.removeAddress peer address])

/-- One address of `Mdns::Expired`. -/
def onExpired (network : P2pNode) (entry : String × Multiaddr) : P2pNode × List Effect :=
  ({ network with sameLanPeers := network.sameLanPeers.erase entry.1 },
    [.removeExplicitPeer entry.1])

/-- A list of addresses, one after the other. -/
def forEach (handle : P2pNode → String × Multiaddr → P2pNode × List Effect) (network : P2pNode)
    (entries : List (String × Multiaddr)) : P2pNode × List Effect :=
  entries.foldl (fun s entry =>
    let (network, effects) := handle s.1 entry
    (network, s.2 ++ effects)) (network, [])

/-- What becomes of one resolved address of `Identify`. -/
def learn (sameLanPeer : Bool) (peer : String) (address : Multiaddr) : Effect :=
  if acceptsLearnedAddress address sameLanPeer then .addAddress peer address
  else .removeAddress peer address

/-- What becomes of one address that a peer says it listens on. -/
def onListenAddr (network : P2pNode) (resolver : Resolver) (peer : String) (address : Multiaddr) :
    List Effect :=
  match normalizeLearnedAddress address peer with
  | none => []
  | some address =>
    match resolveDns4Addresses resolver address with
    | .error _ => []
    | .ok resolved => resolved.map (learn (decide (peer ∈ network.sameLanPeers)) peer)

/-- `handle_swarm_event`. -/
def handleSwarmEvent (ctx : SwarmContext) (network : P2pNode) (surroundings : Surroundings) :
    SwarmEvent → Handled
  | .mdnsDiscovered peers =>
    if ctx.loopbackOnly then ⟨.ok (), network, []⟩
    else
      let (network, effects) := forEach onDiscovered network peers
      ⟨.ok (), network, effects⟩
  | .mdnsExpired peers =>
    if ctx.loopbackOnly then ⟨.ok (), network, []⟩
    else
      let (network, effects) := forEach onExpired network peers
      ⟨.ok (), network, effects⟩
  | .identifyReceived peerId listenAddrs =>
    ⟨.ok (), network, listenAddrs.flatMap (onListenAddr network surroundings.resolver peerId)⟩
  | .gossipMessage propagationSource source topic data =>
    match network.guard.check propagationSource surroundings.instant with
    | (.temporarilyBlocked, guard) => ⟨.ok (), { network with guard }, []⟩
    | (.allow, guard) =>
      onGossipMessage ctx { network with guard } surroundings.instant propagationSource source topic
        data
  | .communicationRequest peer request answered =>
    match network.guard.check peer surroundings.instant with
    | (.temporarilyBlocked, guard) => ⟨.ok (), { network with guard }, []⟩
    | (.allow, guard) =>
      onCommunicationRequest ctx { network with guard } surroundings peer request answered
  | .communicationInboundFailure peer =>
    ⟨.ok (), network.penalize peer 25 surroundings.instant, [.guard (.penalize peer 25)]⟩
  | .connectionEstablished peerId connectionId remoteAddress uniquePeers peerConnections =>
    ⟨.ok (),
      { network with connectedAt := network.connectedAt.insert connectionId surroundings.instant },
      [.tell (.peerConnected peerId remoteAddress (remoteAddress.findSome? protocolIp) connectionId
        uniquePeers peerConnections)]⟩
  | .connectionClosed peerId connectionId remoteAddress uniquePeers peerConnections =>
    ⟨.ok (), { network with connectedAt := network.connectedAt.erase connectionId },
      [.tell (.peerDisconnected peerId remoteAddress (remoteAddress.findSome? protocolIp)
        connectionId ((network.connectedAt.lookup connectionId).map (surroundings.instant - ·))
        uniquePeers peerConnections)]⟩
  | .outgoingConnectionError peerId connectionId =>
    ⟨.ok (), network, [.tell (.outgoingConnectionFailed peerId connectionId)]⟩

/-! ## Runs -/

/-- The task before the first event. -/
def start (banDuration : ℕ) : P2pNode := ⟨PeerGuard.new banDuration, ∅, ∅⟩

/-- An event and what it is handled with. -/
abbrev Arrival := Surroundings × SwarmEvent

/-- The task after a sequence of events, and what they made it do. An event that fails is logged. -/
def run (ctx : SwarmContext) (network : P2pNode) (arrivals : List Arrival) :
    P2pNode × List Effect :=
  arrivals.foldl (fun s arrival =>
    let handled := handleSwarmEvent ctx s.1 arrival.1 arrival.2
    (handled.network, s.2 ++ handled.effects)) (network, [])

end P2pNode

end IeumChain
