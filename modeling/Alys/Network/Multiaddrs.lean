import Alys.Basic.Types
import Alys.Lib.Action
import Alys.Lib.Text

/-!
# Lists of bootnodes

Model of `parse_multiple_multiaddrs` of `app/src/network/mod.rs`, which reads the list of bootnodes.
Addresses that are joined by commas or by blanks are separated there. A text with neither is taken
for a concatenation: an address ends where a name of `SUPPORTED_MULTIADDR_PROTOCOLS` follows from
which on the rest of the text parses.

`Multiaddr::from_str` is that of the library: a text is read component by component, each the name
of a protocol and its argument, if the protocol has one. How the library reads addresses, ports and
peer ids is a parameter.
-/

namespace Alys
open Lib

/-! ## Multiaddresses -/

/-- `multiaddr::Error`. -/
inductive MultiaddrError where
  | invalidMultiaddr
  | invalidProtocolString
  | unknownProtocolString (name : Text)
  deriving DecidableEq

/-- A component of a multiaddress: a protocol, with its argument if it has one. -/
structure Component (Arg : Type) where
  name : Text
  argument : Option Arg
  deriving DecidableEq

abbrev Multiaddr (Arg : Type) := List (Component Arg)

/-- What follows the name of a protocol. -/
inductive Argument (Arg : Type) where
  | none
  | one (read : Text → Option Arg)

/-- How the library reads arguments, and its other protocols. -/
structure Readers (Arg : Type) where
  ip4 : Text → Option Arg
  ip6 : Text → Option Arg
  name : Text → Arg
  port : Text → Option Arg
  peerId : Text → Option Arg
  others : Text → Option (Argument Arg)

namespace Readers

variable {Arg : Type} (R : Readers Arg)

def table : List (Text × Argument Arg) :=
  [("ip4".toList, .one R.ip4),
    ("ip6".toList, .one R.ip6),
    ("dns".toList, .one fun host => some (R.name host)),
    ("dns4".toList, .one fun host => some (R.name host)),
    ("dns6".toList, .one fun host => some (R.name host)),
    ("unix".toList, .one fun path => some (R.name path)),
    ("tcp".toList, .one R.port),
    ("udp".toList, .one R.port),
    ("p2p".toList, .one R.peerId),
    ("p2p-webrtc-star".toList, .none),
    ("p2p-websocket-star".toList, .none)]

/-- The protocol of a name, if there is one. -/
def protocol (name : Text) : Option (Argument Arg) := (R.table.lookup name).or (R.others name)

/-- The loop of `Multiaddr::from_str` over the parts between the slashes. -/
def fromParts : List Text → Except MultiaddrError (Multiaddr Arg)
  | [] => .ok []
  | [name] =>
    match R.protocol name with
    | none => .error (.unknownProtocolString name)
    | some .none => .ok [⟨name, none⟩]
    | some (.one _) => .error .invalidProtocolString
  | name :: part :: parts =>
    match R.protocol name with
    | none => .error (.unknownProtocolString name)
    | some .none => do return ⟨name, none⟩ :: (← fromParts (part :: parts))
    | some (.one read) =>
      match read part with
      | none => .error .invalidProtocolString
      | some arg => do return ⟨name, some arg⟩ :: (← fromParts parts)

/-- `Multiaddr::from_str`. -/
def fromStr (input : Text) : Except MultiaddrError (Multiaddr Arg) :=
  match input.splitOn '/' with
  | [] => .error .invalidMultiaddr
  | first :: parts => if first.isEmpty then R.fromParts parts else .error .invalidMultiaddr

end Readers

/-! ## The code -/

/-- `SUPPORTED_MULTIADDR_PROTOCOLS`. -/
def supportedMultiaddrProtocols : List Text :=
  ["ip4".toList, "ip6".toList, "dns".toList, "dns4".toList, "dns6".toList, "unix".toList,
    "p2p".toList, "p2p-webrtc-star".toList, "p2p-websocket-star".toList]

/-- `char::is_whitespace`: the characters with the property `White_Space`. -/
def isWhitespace (c : Char) : Bool :=
  (9 ≤ c.toNat && c.toNat ≤ 13) || (0x2000 ≤ c.toNat && c.toNat ≤ 0x200A) ||
    [0x20, 0x85, 0xA0, 0x1680, 0x2028, 0x2029, 0x202F, 0x205F, 0x3000].contains c.toNat

/-- `str::trim`. -/
def trim (text : Text) : Text :=
  ((text.dropWhile isWhitespace).reverse.dropWhile isWhitespace).reverse

/-- `str::split_whitespace`. -/
def splitWhitespace (text : Text) : List Text :=
  (text.splitOnP isWhitespace).filter (!·.isEmpty)

section

variable {Arg : Type} (R : Readers Arg)

/-- The loop over texts that were separated. -/
def parseEach : List Text → Except (Fault MultiaddrError) (List (Multiaddr Arg))
  | [] => .ok []
  | addrStr :: rest =>
    let addrStr := trim addrStr
    if addrStr.isEmpty then
      parseEach rest
    else do
      let addr ← (R.fromStr addrStr).mapError .error
      return addr :: (← parseEach rest)

/-- Whether a new address starts before a position, as the inner loop decides it: a supported
protocol is named there, and the rest of the input parses. -/
def startsMultiaddr (input : Text) (protocolStart : Nat) : Bool :=
  if protocolStart < input.length then
    match (input.drop protocolStart).findIdx? (· == '/') with
    | none => false
    | some protocolEnd =>
      supportedMultiaddrProtocols.contains ((input.drop protocolStart).take protocolEnd) &&
        (R.fromStr (input.drop (protocolStart - 1))).isOk
  else
    false

/-- The inner loop: the end of the address. -/
def searchEnd (input : Text) : Nat → Nat → Nat
  | 0, _ => input.length
  | fuel + 1, searchPos =>
    if searchPos < input.length then
      match (input.drop searchPos).findIdx? (· == '/') with
      | none => input.length
      | some nextSlash =>
        let protocolStart := searchPos + nextSlash + 1
        if startsMultiaddr R input protocolStart then
          protocolStart - 1
        else
          searchEnd input fuel protocolStart
    else
      input.length

/-- The loop over a concatenation. -/
def concatenatedLoop (input : Text) :
    Nat → Nat → List (Multiaddr Arg) → Except (Fault MultiaddrError) (List (Multiaddr Arg))
  | 0, _, _ => .error .diverge
  | fuel + 1, currentPos, addresses =>
    if currentPos < input.length then
      match (input.drop currentPos).findIdx? (· == '/') with
      | none => .ok addresses
      | some slashPos =>
        let startPos := currentPos + slashPos
        let endPos := searchEnd R input (input.length + 1) (startPos + 1)
        match R.fromStr ((input.take endPos).drop startPos) with
        | .ok addr => concatenatedLoop input fuel endPos (addresses ++ [addr])
        | .error e => .error (.error e)
    else
      .ok addresses

/-- `parse_multiple_multiaddrs`. -/
def parseMultipleMultiaddrs (input : Text) :
    Except (Fault MultiaddrError) (List (Multiaddr Arg)) :=
  if input.contains ',' then
    parseEach R (input.splitOn ',')
  else if input.contains ' ' then
    parseEach R (splitWhitespace input)
  else do
    let addresses ← concatenatedLoop R input (input.length + 1) 0 []
    if addresses.isEmpty then
      .error (.error .invalidMultiaddr)
    else
      return addresses

end

/-! ## Bootnodes -/

inductive NetProtocol where
  | ip4
  | ip6
  | dns
  | dns4
  | dns6
  deriving DecidableEq

def NetProtocol.name : NetProtocol → Text
  | .ip4 => "ip4".toList
  | .ip6 => "ip6".toList
  | .dns => "dns".toList
  | .dns4 => "dns4".toList
  | .dns6 => "dns6".toList

inductive Transport where
  | tcp
  | udp
  deriving DecidableEq

def Transport.name : Transport → Text
  | .tcp => "tcp".toList
  | .udp => "udp".toList

/-- Neither a slash nor a separator. -/
def Plain (text : Text) : Prop := ∀ c ∈ text, c ≠ '/' ∧ c ≠ ',' ∧ isWhitespace c = false

instance (text : Text) : Decidable (Plain text) :=
  List.decidableBAll (fun c => c ≠ '/' ∧ c ≠ ',' ∧ isWhitespace c = false) text

/-- The address of a bootnode: a host, a port and possibly a peer id, and the multiaddress that it
stands for. -/
structure Bootnode {Arg : Type} (R : Readers Arg) where
  net : NetProtocol
  host : Text
  transport : Transport
  port : Text
  peerId : Option Text
  addr : Multiaddr Arg
  plain : ∀ text ∈ host :: port :: peerId.toList, Plain text
  valid : R.fromParts ([net.name, host, transport.name, port] ++
    peerId.elim [] fun id => ["p2p".toList, id]) = .ok addr

/-- The ways of writing a list of addresses. -/
inductive ListFormat where
  | commas
  | spaces
  | concatenated

def ListFormat.join : ListFormat → List Text → Text
  | .commas => [','].intercalate
  | .spaces => [' '].intercalate
  | .concatenated => List.flatten

/-- The library takes no port for the name of a protocol. -/
def Readers.Sound {Arg : Type} (R : Readers Arg) : Prop :=
  ∀ text arg, R.port text = some arg → R.protocol text = none

namespace Bootnode

variable {Arg : Type} {R : Readers Arg}

/-- The parts between the slashes. -/
def parts (node : Bootnode R) : List Text :=
  [node.net.name, node.host, node.transport.name, node.port] ++
    node.peerId.elim [] fun id => ["p2p".toList, id]

def text (node : Bootnode R) : Text := joinSegments '/' node.parts

/-- The host is named as a protocol without an argument. -/
def StarHost (node : Bootnode R) : Prop :=
  node.host = "p2p-webrtc-star".toList ∨ node.host = "p2p-websocket-star".toList

/-- No part of the address can be taken for the start of another one. -/
def Separable (node : Bootnode R) : Prop := node.peerId = none ∧ ¬ node.StarHost

end Bootnode

/-! ## Components -/

namespace Readers

variable {Arg : Type} {R : Readers Arg} {parts parts' : List Text} {addr addr' : Multiaddr Arg}

/-- A sequence of complete components. -/
inductive Complete (R : Readers Arg) : List Text → Multiaddr Arg → Prop where
  | nil : Complete R [] []
  | bare {name parts addr} (known : R.protocol name = some .none) (rest : Complete R parts addr) :
    Complete R (name :: parts) (⟨name, none⟩ :: addr)
  | full {name read part arg parts addr} (known : R.protocol name = some (.one read))
    (hread : read part = some arg) (rest : Complete R parts addr) :
    Complete R (name :: part :: parts) (⟨name, some arg⟩ :: addr)

/-- The library accepts sequences of complete components, and nothing else. -/
lemma fromParts_eq_ok_iff : R.fromParts parts = .ok addr ↔ R.Complete parts addr := by
  constructor
  · intro e
    fun_induction fromParts generalizing addr with
    | case1 =>
      cases e
      exact .nil
    | case2 => cases e
    | case3 name known =>
      cases e
      exact .bare known .nil
    | case4 => cases e
    | case5 => cases e
    | case6 name part parts known ih =>
      obtain ⟨rest, hrest, e⟩ := bind_eq_ok_iff.mp e
      cases e
      exact .bare known (ih hrest)
    | case7 => cases e
    | case8 name part parts read known arg hread ih =>
      obtain ⟨rest, hrest, e⟩ := bind_eq_ok_iff.mp e
      cases e
      exact .full known hread (ih hrest)
  · intro complete
    induction complete with
    | nil => rfl
    | @bare name parts addr known rest ih =>
      cases parts with
      | nil =>
        cases rest
        rw [fromParts, known]
      | cons part parts =>
        rw [fromParts, known]
        dsimp only
        rw [ih]
        rfl
    | full known hread rest ih =>
      rw [fromParts, known]
      dsimp only
      rw [hread]
      dsimp only
      rw [ih]
      rfl

lemma Complete.append (complete : R.Complete parts addr) (complete' : R.Complete parts' addr') :
    R.Complete (parts ++ parts') (addr ++ addr') := by
  induction complete with
  | nil => exact complete'
  | bare known _ ih => exact .bare known ih
  | full known hread _ ih => exact .full known hread ih

/-- A protocol with an argument is followed by one. -/
lemma Complete.inv_one {name : Text} {read : Text → Option Arg}
    (known : R.protocol name = some (.one read)) (complete : R.Complete (name :: parts) addr) :
    ∃ part arg parts' addr', parts = part :: parts' ∧ read part = some arg ∧
      R.Complete parts' addr' ∧ addr = ⟨name, some arg⟩ :: addr' := by
  cases complete with
  | bare known' => cases known.symm.trans known'
  | @full _ read' part arg parts' addr' known' hread rest =>
    cases known.symm.trans known'
    exact ⟨part, arg, parts', addr', rfl, hread, rest, rfl⟩

lemma Complete.known {name : Text} (complete : R.Complete (name :: parts) addr) :
    R.protocol name ≠ none := by
  cases complete with
  | bare known => simp [known]
  | full known => simp [known]

/-- A text whose parts have no slash is read part by part. -/
lemma fromStr_joinSegments (h : ∀ part ∈ parts, '/' ∉ part) :
    R.fromStr (joinSegments '/' parts) = R.fromParts parts := by
  rw [fromStr, splitOn_joinSegments h]
  rfl

end Readers

/-! ## The search for the end -/

section

variable {Arg : Type} {R : Readers Arg} {before segment name : Text} {parts : List Text}

/-- Whether an address starts with these parts, as the inner loop decides it. -/
def startsAt (R : Readers Arg) (name : Text) (parts : List Text) : Bool :=
  !parts.isEmpty && supportedMultiaddrProtocols.contains name && (R.fromParts (name :: parts)).isOk

/-- The number of parts, after the first one, until the next address. -/
def addressEnd (R : Readers Arg) : List Text → Nat
  | [] => 0
  | name :: parts => if startsAt R name parts then 0 else addressEnd R parts + 1

/-- Whether an address starts here. -/
lemma startsMultiaddr_eq (h : ∀ part ∈ name :: parts, '/' ∉ part) :
    startsMultiaddr R (before ++ joinSegments '/' (name :: parts)) (before.length + 1) =
      startsAt R name parts := by
  have hdrop : (before ++ joinSegments '/' (name :: parts)).drop (before.length + 1) =
      name ++ joinSegments '/' parts := by
    rw [joinSegments_cons, List.drop_length_add_append]
    rfl
  have hdrop' : (before ++ joinSegments '/' (name :: parts)).drop (before.length + 1 - 1) =
      joinSegments '/' (name :: parts) := List.drop_left
  rw [startsMultiaddr, hdrop, hdrop', Readers.fromStr_joinSegments h,
    findIdx?_segment (h name List.mem_cons_self), startsAt]
  cases parts with
  | nil => split <;> rfl
  | cons part parts =>
    have lt : before.length + 1 <
        (before ++ joinSegments '/' (name :: part :: parts)).length := by
      simp only [joinSegments_cons, List.length_append, List.length_cons]
      omega
    rw [if_pos lt]
    simp

variable {fuel : Nat} {addresses : List (Multiaddr Arg)}

/-- The end that is found is that of the longest address. -/
lemma searchEnd_eq (h : ∀ part ∈ segment :: parts, '/' ∉ part) (hfuel : parts.length < fuel) :
    searchEnd R (before ++ (segment ++ joinSegments '/' parts)) fuel before.length =
      before.length + segment.length +
        (joinSegments '/' (parts.take (addressEnd R parts))).length := by
  induction parts generalizing before segment fuel with
  | nil =>
    obtain ⟨fuel, rfl⟩ := Nat.exists_eq_succ_of_ne_zero (Nat.ne_zero_of_lt hfuel)
    rw [searchEnd, List.drop_left, findIdx?_segment (h segment List.mem_cons_self)]
    simp [joinSegments]
  | cons name parts ih =>
    obtain ⟨fuel, rfl⟩ := Nat.exists_eq_succ_of_ne_zero (Nat.ne_zero_of_lt hfuel)
    have h' : ∀ part ∈ name :: parts, '/' ∉ part :=
      fun part mem => h part (List.mem_cons_of_mem _ mem)
    have lt : before.length < (before ++ (segment ++ joinSegments '/' (name :: parts))).length := by
      simp only [joinSegments_cons, List.length_append, List.length_cons]
      omega
    have hstarts : startsMultiaddr R (before ++ segment ++ joinSegments '/' (name :: parts))
        ((before ++ segment).length + 1) = startsAt R name parts := startsMultiaddr_eq h'
    rw [List.length_append, List.append_assoc] at hstarts
    rw [searchEnd, if_pos lt, List.drop_left, findIdx?_segment (h segment List.mem_cons_self)]
    simp only [List.isEmpty_cons, Bool.false_eq_true, if_false]
    rw [hstarts, addressEnd]
    split
    case isTrue => simp [joinSegments]
    case isFalse =>
      have hlength : before.length + segment.length + 1 = (before ++ segment ++ ['/']).length := by
        simp [Nat.add_assoc]
      have hinput : before ++ (segment ++ joinSegments '/' (name :: parts)) =
          (before ++ segment ++ ['/']) ++ (name ++ joinSegments '/' parts) := by
        simp [joinSegments_cons]
      rw [hlength, hinput, ih h' (Nat.lt_of_succ_lt_succ hfuel)]
      simp only [List.take_succ_cons, joinSegments_cons, List.length_append, List.length_cons,
        List.length_nil]
      omega

/-- The parts of an input up to the next address. -/
def firstParts (R : Readers Arg) (name : Text) (parts : List Text) : List Text :=
  name :: parts.take (addressEnd R parts)

/-- The end of an address that starts here. -/
lemma searchEnd_first (h : ∀ part ∈ name :: parts, '/' ∉ part) :
    searchEnd R (before ++ joinSegments '/' (name :: parts))
        ((before ++ joinSegments '/' (name :: parts)).length + 1) (before.length + 0 + 1) =
      (before ++ joinSegments '/' (firstParts R name parts)).length := by
  have hinput : before ++ joinSegments '/' (name :: parts) =
      (before ++ ['/']) ++ (name ++ joinSegments '/' parts) := by
    simp [joinSegments_cons]
  have hlength : before.length + 0 + 1 = (before ++ ['/']).length := by simp
  have hfuel : parts.length < (before ++ joinSegments '/' (name :: parts)).length + 1 := by
    have le : parts.length ≤ (joinSegments '/' parts).length := length_le_joinSegments
    simp only [joinSegments_cons, List.length_append, List.length_cons]
    omega
  rw [hlength]
  refine (congrArg (searchEnd R · _ _) hinput).trans ((searchEnd_eq h hfuel).trans ?_)
  simp only [firstParts, joinSegments_cons, List.length_append, List.length_cons, List.length_nil]
  omega

/-- One round of the loop reads the parts up to the next address. -/
lemma concatenatedLoop_step (h : ∀ part ∈ name :: parts, '/' ∉ part) :
    concatenatedLoop R (before ++ joinSegments '/' (name :: parts)) (fuel + 1) before.length
        addresses =
      (R.fromParts (firstParts R name parts)).mapError .error >>= fun addr =>
        concatenatedLoop R (before ++ joinSegments '/' (name :: parts)) fuel
          (before ++ joinSegments '/' (firstParts R name parts)).length (addresses ++ [addr]) := by
  have lt : before.length < (before ++ joinSegments '/' (name :: parts)).length := by
    simp only [joinSegments_cons, List.length_append, List.length_cons]
    omega
  have hslash : (joinSegments '/' (name :: parts)).findIdx? (· == '/') = some 0 := by
    rw [joinSegments_cons, List.findIdx?_cons, if_pos (beq_self_eq_true '/')]
  have hinput : before ++ joinSegments '/' (name :: parts) =
      (before ++ joinSegments '/' (firstParts R name parts)) ++
        joinSegments '/' (parts.drop (addressEnd R parts)) := by
    rw [List.append_assoc, ← joinSegments_append, firstParts, List.cons_append,
      List.take_append_drop]
  have hfirst : ∀ part ∈ firstParts R name parts, '/' ∉ part := by
    intro part mem
    rcases List.mem_cons.mp mem with rfl | mem
    · exact h part List.mem_cons_self
    · exact h part (List.mem_cons_of_mem _ (List.mem_of_mem_take mem))
  have hslice : ((before ++ joinSegments '/' (name :: parts)).take
      (before ++ joinSegments '/' (firstParts R name parts)).length).drop before.length =
        joinSegments '/' (firstParts R name parts) := by
    rw [hinput, List.take_left, List.drop_left]
  rw [concatenatedLoop, if_pos lt, List.drop_left, hslash]
  dsimp only
  rw [searchEnd_first h, Nat.add_zero, hslice, Readers.fromStr_joinSegments hfirst]
  cases R.fromParts (firstParts R name parts) with
  | ok addr => rfl
  | error e => rfl

lemma concatenatedLoop_end {input : Text} :
    concatenatedLoop R input (fuel + 1) input.length addresses = .ok addresses := by
  rw [concatenatedLoop, if_neg (Nat.lt_irrefl _)]

/-- The addresses that were read stay. -/
lemma concatenatedLoop_prefix {fuel pos : Nat} {input : Text}
    {addresses addresses' : List (Multiaddr Arg)}
    (e : concatenatedLoop R input fuel pos addresses = .ok addresses') :
    addresses <+: addresses' := by
  induction fuel generalizing pos addresses with
  | zero => cases e
  | succ fuel ih =>
    rw [concatenatedLoop] at e
    split at e
    · split at e
      · cases e
        exact List.prefix_rfl
      · dsimp only at e
        split at e
        · exact (List.prefix_append _ _).trans (ih e)
        · cases e
    · cases e
      exact List.prefix_rfl

end

/-! ## Lists of bootnodes -/

/-- How the library reads a host. -/
def NetProtocol.read {Arg : Type} (R : Readers Arg) : NetProtocol → Text → Option Arg
  | .ip4 => R.ip4
  | .ip6 => R.ip6
  | .dns => fun host => some (R.name host)
  | .dns4 => fun host => some (R.name host)
  | .dns6 => fun host => some (R.name host)

namespace Bootnode

variable {Arg : Type} {R : Readers Arg} {node : Bootnode R} {nodes : List (Bootnode R)}

lemma protocol_net (net : NetProtocol) : R.protocol net.name = some (.one (net.read R)) := by
  cases net <;> rfl

lemma protocol_transport (transport : Transport) :
    R.protocol transport.name = some (.one R.port) := by
  cases transport <;> rfl

lemma protocol_p2p : R.protocol "p2p".toList = some (.one R.peerId) := rfl

/-- The address without the peer id. -/
def endpoint (node : Bootnode R) : List Text :=
  [node.net.name, node.host, node.transport.name, node.port]

/-- What precedes the peer id is an address of its own, and another one if there is a peer id. -/
lemma endpoint_complete (node : Bootnode R) :
    ∃ addr, R.Complete node.endpoint addr ∧ (∃ arg, R.port node.port = some arg) ∧
      (addr = node.addr ↔ node.peerId = none) := by
  obtain ⟨_, host, _, _, e, hhost, complete, haddr⟩ :=
    (Readers.fromParts_eq_ok_iff.mp node.valid).inv_one (protocol_net node.net)
  cases e
  obtain ⟨_, port, _, rest, e, hport, complete, rfl⟩ :=
    complete.inv_one (protocol_transport node.transport)
  cases e
  refine ⟨_, .full (protocol_net _) hhost (.full (protocol_transport _) hport .nil), ⟨_, hport⟩, ?_⟩
  rw [haddr]
  cases hid : node.peerId with
  | none =>
    rw [hid] at complete
    cases complete
    exact iff_of_true rfl rfl
  | some id =>
    rw [hid] at complete
    obtain ⟨_, arg, _, _, _, _, _, rfl⟩ := complete.inv_one protocol_p2p
    simp

/-- The parts of the peer id. -/
def peerParts (node : Bootnode R) : List Text :=
  node.peerId.elim [] fun id => ["p2p".toList, id]

/-- The parts of a list of addresses. -/
def allParts (nodes : List (Bootnode R)) : List Text := nodes.flatMap parts

lemma allParts_cons : allParts (node :: nodes) = node.net.name :: node.host ::
    node.transport.name :: node.port :: (node.peerParts ++ allParts nodes) := rfl

lemma length_le_allParts : nodes.length ≤ (allParts nodes).length := by
  induction nodes with
  | nil => exact Nat.le_refl _
  | cons node nodes ih =>
    simp only [allParts_cons, List.length_cons, List.length_append]
    omega

lemma complete_allParts : R.Complete (allParts nodes) (nodes.flatMap addr) := by
  induction nodes with
  | nil => exact .nil
  | cons node nodes ih => exact (Readers.fromParts_eq_ok_iff.mp node.valid).append ih

variable {name : Text}

lemma startsAt_of_complete {parts : List Text} {addr : Multiaddr Arg}
    (supported : supportedMultiaddrProtocols.contains name = true) (ne : parts ≠ [])
    (complete : R.Complete (name :: parts) addr) : startsAt R name parts = true := by
  rw [startsAt, supported, Readers.fromParts_eq_ok_iff.mpr complete, Bool.and_true]
  exact Bool.and_eq_true_iff.mpr ⟨by simpa using ne, rfl⟩

lemma complete_of_startsAt {parts : List Text} (h : startsAt R name parts = true) :
    supportedMultiaddrProtocols.contains name = true ∧ ∃ addr, R.Complete (name :: parts) addr := by
  rw [startsAt, Bool.and_eq_true, Bool.and_eq_true] at h
  refine ⟨h.1.2, ?_⟩
  cases e : R.fromParts (name :: parts) with
  | ok addr => exact ⟨addr, Readers.fromParts_eq_ok_iff.mp e⟩
  | error e' =>
    rw [e] at h
    cases h.2

/-- A list of addresses starts with an address. -/
lemma addressEnd_allParts : addressEnd R (allParts nodes) = 0 := by
  cases nodes with
  | nil => rfl
  | cons node nodes =>
    have supported : supportedMultiaddrProtocols.contains node.net.name = true := by
      cases node.net <;> rfl
    have complete : R.Complete (allParts (node :: nodes)) _ := complete_allParts
    rw [allParts_cons] at complete ⊢
    exact if_pos (startsAt_of_complete supported (List.cons_ne_nil _ _) complete)

/-- Of the supported protocols, two have no argument. -/
lemma bare_supported (mem : name ∈ supportedMultiaddrProtocols)
    (known : R.protocol name = some .none) :
    name = "p2p-webrtc-star".toList ∨ name = "p2p-websocket-star".toList := by
  simp only [supportedMultiaddrProtocols, List.mem_cons, List.not_mem_nil, or_false] at mem
  iterate 7
    rcases mem with rfl | mem
    · cases known
  exact mem

/-- The search passes over the host, the transport and the port of an address. -/
lemma addressEnd_host (sound : R.Sound) (node : Bootnode R) (host : ¬ node.StarHost)
    (rest : List Text) :
    addressEnd R (node.host :: node.transport.name :: node.port :: rest) =
      addressEnd R rest + 3 := by
  obtain ⟨_, _, ⟨port, hport⟩, _⟩ := node.endpoint_complete
  have hunknown := sound _ _ hport
  have hhost : ¬ startsAt R node.host (node.transport.name :: node.port :: rest) = true := by
    intro h
    obtain ⟨supported, addr, complete⟩ := complete_of_startsAt h
    cases complete with
    | bare known =>
      exact host (bare_supported (List.contains_iff_mem.mp supported) known)
    | full _ _ complete => exact complete.known hunknown
  have htransport : ¬ startsAt R node.transport.name (node.port :: rest) = true := by
    intro h
    have supported := (complete_of_startsAt h).1
    cases ht : node.transport <;>
      simp [ht, Transport.name, supportedMultiaddrProtocols] at supported
  have hport : ¬ startsAt R node.port rest = true := by
    intro h
    obtain ⟨_, addr, complete⟩ := complete_of_startsAt h
    exact complete.known hunknown
  rw [addressEnd, if_neg hhost, addressEnd, if_neg htransport, addressEnd, if_neg hport]

/-- A host that is named as a protocol without an argument is taken for the next address. -/
lemma addressEnd_starHost (node : Bootnode R) (host : node.StarHost) :
    addressEnd R (node.host :: node.transport.name :: node.port ::
      (node.peerParts ++ allParts nodes)) = 0 := by
  have complete : R.Complete (allParts (node :: nodes)) _ := complete_allParts
  obtain ⟨_, _, _, _, e, _, complete, _⟩ := complete.inv_one (protocol_net node.net)
  cases e
  have hbare : supportedMultiaddrProtocols.contains node.host = true ∧
      R.protocol node.host = some .none := by
    rcases host with e | e
    · rw [e]
      exact ⟨rfl, rfl⟩
    · rw [e]
      exact ⟨rfl, rfl⟩
  exact if_pos (startsAt_of_complete hbare.1 (List.cons_ne_nil _ _) (.bare hbare.2 complete))

/-- A peer id is taken for an address of its own. -/
lemma addressEnd_peerParts : addressEnd R (node.peerParts ++ allParts nodes) = 0 := by
  cases hid : node.peerId with
  | none =>
    rw [peerParts, hid]
    exact addressEnd_allParts
  | some id =>
    have complete : R.Complete (allParts (node :: nodes)) _ := complete_allParts
    obtain ⟨_, _, _, _, e, _, complete, _⟩ := complete.inv_one (protocol_net node.net)
    cases e
    obtain ⟨_, _, _, _, e, _, complete, _⟩ := complete.inv_one (protocol_transport node.transport)
    cases e
    change R.Complete (node.peerParts ++ allParts nodes) _ at complete
    rw [peerParts, hid] at complete ⊢
    exact if_pos (startsAt_of_complete rfl (List.cons_ne_nil _ _) complete)

/-- The characters of an address. -/
lemma plain_parts (node : Bootnode R) : ∀ part ∈ node.parts, Plain part := by
  intro part mem
  have hnames : ∀ net : NetProtocol, Plain net.name := by
    intro net
    cases net <;> decide
  have htransports : ∀ transport : Transport, Plain transport.name := by
    intro transport
    cases transport <;> decide
  have hparts : part = node.net.name ∨ part = node.transport.name ∨ part = "p2p".toList ∨
      part ∈ node.host :: node.port :: node.peerId.toList := by
    unfold parts at mem
    cases hid : node.peerId with
    | none => simp [hid] at mem ⊢; grind
    | some id => simp [hid] at mem ⊢; grind
  rcases hparts with rfl | rfl | rfl | mem
  · exact hnames _
  · exact htransports _
  · decide
  · exact node.plain part mem

lemma slash_notMem_allParts : ∀ part ∈ allParts nodes, '/' ∉ part := by
  intro part mem slash
  obtain ⟨node, _, mem⟩ := List.mem_flatMap.mp mem
  exact (node.plain_parts part mem '/' slash).1 rfl

/-- The loop over a concatenation finds the addresses if and only if each is separable. -/
lemma concatenatedLoop_iff (sound : R.Sound) {before : Text} {fuel : Nat}
    {addresses : List (Multiaddr Arg)} (hfuel : nodes.length < fuel) :
    concatenatedLoop R (before ++ joinSegments '/' (allParts nodes)) fuel before.length addresses =
        .ok (addresses ++ nodes.map addr) ↔
      ∀ node ∈ nodes, node.Separable := by
  induction nodes generalizing before fuel addresses with
  | nil =>
    obtain ⟨fuel, rfl⟩ := Nat.exists_eq_succ_of_ne_zero (Nat.ne_zero_of_lt hfuel)
    have hinput : before ++ joinSegments '/' (allParts ([] : List (Bootnode R))) = before :=
      List.append_nil before
    rw [hinput, concatenatedLoop_end, List.map_nil, List.append_nil]
    simp
  | cons node nodes ih =>
    obtain ⟨fuel, rfl⟩ := Nat.exists_eq_succ_of_ne_zero (Nat.ne_zero_of_lt hfuel)
    have hslash : ∀ part ∈ allParts (node :: nodes), '/' ∉ part := slash_notMem_allParts
    rw [allParts_cons] at hslash ⊢
    rw [concatenatedLoop_step hslash, List.forall_mem_cons]
    by_cases host : node.StarHost
    · -- the first address would end before its host
      rw [firstParts, addressEnd_starHost node host, List.take_zero, Readers.fromParts,
        protocol_net]
      refine iff_of_false (fun e => ?_) fun h => h.1.2 host
      cases e
    · have hfirst : firstParts R node.net.name (node.host :: node.transport.name :: node.port ::
          (node.peerParts ++ allParts nodes)) = node.endpoint := by
        rw [firstParts, addressEnd_host sound node host, addressEnd_peerParts]
        rfl
      obtain ⟨addr, complete, _, haddr⟩ := node.endpoint_complete
      rw [hfirst, Readers.fromParts_eq_ok_iff.mpr complete]
      change concatenatedLoop R _ _ _ _ = _ ↔ _
      rw [← allParts_cons]
      by_cases hid : node.peerId = none
      · have hsplit : before ++ joinSegments '/' (allParts (node :: nodes)) =
            (before ++ joinSegments '/' node.endpoint) ++ joinSegments '/' (allParts nodes) := by
          rw [List.append_assoc, ← joinSegments_append, allParts_cons, peerParts, hid]
          rfl
        rw [hsplit, haddr.mpr hid, List.map_cons,
          List.append_cons addresses node.addr (nodes.map Bootnode.addr),
          ih (Nat.lt_of_succ_lt_succ hfuel)]
        exact (and_iff_right ⟨hid, host⟩).symm
      · refine iff_of_false (fun e => hid (haddr.mp ?_)) fun h => hid h.1.1
        -- the address without the peer id stays in the list
        have hprefix := concatenatedLoop_prefix e
        rw [List.map_cons, List.prefix_append_right_inj, List.cons_prefix_cons] at hprefix
        exact hprefix.1

/-! ## The formats -/

lemma fromStr_text (node : Bootnode R) : R.fromStr node.text = .ok node.addr := by
  have hslash : ∀ part ∈ node.parts, '/' ∉ part :=
    fun part mem slash => (node.plain_parts part mem '/' slash).1 rfl
  exact (Readers.fromStr_joinSegments hslash).trans node.valid

/-- An address has neither a comma nor a blank. -/
lemma mem_text {c : Char} (mem : c ∈ node.text) : c ≠ ',' ∧ isWhitespace c = false := by
  obtain ⟨part, hpart, mem⟩ := List.mem_flatMap.mp mem
  rcases List.mem_cons.mp mem with rfl | mem
  · decide
  · exact (node.plain_parts part hpart c mem).2

lemma text_ne_nil : node.text ≠ [] := List.cons_ne_nil _ _

lemma flatten_texts : (nodes.map text).flatten = joinSegments '/' (allParts nodes) := by
  induction nodes with
  | nil => rfl
  | cons node nodes ih =>
    rw [List.map_cons, List.flatten_cons, ih, text, ← joinSegments_append]
    rfl

lemma trim_of_forall {text : Text} (h : ∀ c ∈ text, isWhitespace c = false) : trim text = text := by
  have hdrop : ∀ {l : Text}, (∀ c ∈ l, isWhitespace c = false) → l.dropWhile isWhitespace = l := by
    intro l h
    cases l with
    | nil => rfl
    | cons c l => rw [List.dropWhile_cons, if_neg (by simp [h c List.mem_cons_self])]
  rw [trim, hdrop h, hdrop fun c mem => h c (List.mem_reverse.mp mem), List.reverse_reverse]

/-- Texts that were separated are read one by one. -/
lemma parseEach_texts : parseEach R (nodes.map text) = .ok (nodes.map addr) := by
  induction nodes with
  | nil => rfl
  | cons node nodes ih =>
    have htrim : trim node.text = node.text := trim_of_forall fun c mem => (mem_text mem).2
    rw [List.map_cons, parseEach, htrim, if_neg (by simp [text_ne_nil]), fromStr_text, ih]
    rfl

lemma splitWhitespace_texts (ne : nodes ≠ []) :
    splitWhitespace ([' '].intercalate (nodes.map text)) = nodes.map text := by
  have hsplit : ([' '].intercalate (nodes.map text)).splitOnP isWhitespace = nodes.map text := by
    refine splitOnP_intercalate rfl (fun t mem c hc => ?_) (by simpa using ne)
    obtain ⟨node, _, rfl⟩ := List.mem_map.mp mem
    exact (mem_text hc).2
  rw [splitWhitespace, hsplit, List.filter_eq_self]
  intro t mem
  obtain ⟨node, _, rfl⟩ := List.mem_map.mp mem
  simp [text_ne_nil]

/-- A text without separators is taken for a concatenation. -/
lemma parse_concatenated (sound : R.Sound) (ne : nodes ≠ []) :
    parseMultipleMultiaddrs R (nodes.map text).flatten = .ok (nodes.map addr) ↔
      ∀ node ∈ nodes, node.Separable := by
  have habsent : ∀ c, c = ',' ∨ c = ' ' → (nodes.map text).flatten.contains c = false := by
    intro c hc
    rw [List.contains_eq_mem, decide_eq_false_iff_not, List.mem_flatten]
    rintro ⟨t, mem, hmem⟩
    obtain ⟨node, _, rfl⟩ := List.mem_map.mp mem
    have hplain := mem_text hmem
    rcases hc with rfl | rfl
    · exact hplain.1 rfl
    · cases hplain.2
  have hfuel : nodes.length < (joinSegments '/' (allParts nodes)).length + 1 :=
    Nat.lt_succ_of_le (length_le_allParts.trans length_le_joinSegments)
  have hne : nodes.map addr ≠ [] := by simpa using ne
  have hloop : concatenatedLoop R ([] ++ joinSegments '/' (allParts nodes)) _ [].length [] =
      .ok ([] ++ nodes.map addr) ↔ _ := concatenatedLoop_iff sound hfuel
  rw [← hloop, parseMultipleMultiaddrs, habsent ',' (.inl rfl), habsent ' ' (.inr rfl),
    flatten_texts]
  simp only [Bool.false_eq_true, if_false, bind_eq_ok_iff]
  constructor
  · rintro ⟨addresses, e, e'⟩
    split at e'
    · cases e'
    · cases e'
      exact e
  · intro e
    exact ⟨_, e, if_neg (by simpa using hne)⟩

/-- Joined by a separator, a single address is the concatenation, and two have the separator. -/
lemma intercalate_cases (sep : Char) (ne : nodes ≠ []) :
    [sep].intercalate (nodes.map text) = (nodes.map text).flatten ∨
      sep ∈ [sep].intercalate (nodes.map text) := by
  rcases nodes with _ | ⟨node, _ | ⟨node', nodes⟩⟩
  · exact absurd rfl ne
  · exact .inl (by simp)
  · exact .inr (by simp [List.intercalate_cons_cons])

lemma parse_commas (ne : nodes ≠ []) (hmem : ',' ∈ [','].intercalate (nodes.map text)) :
    parseMultipleMultiaddrs R ([','].intercalate (nodes.map text)) = .ok (nodes.map addr) := by
  have hsplit : ([','].intercalate (nodes.map text)).splitOn ',' = nodes.map text := by
    refine List.splitOn_intercalate ',' (fun t mem hc => ?_) (by simpa using ne)
    obtain ⟨node, _, rfl⟩ := List.mem_map.mp mem
    exact (mem_text hc).1 rfl
  rw [parseMultipleMultiaddrs, if_pos (List.contains_iff_mem.mpr hmem), hsplit, parseEach_texts]

lemma parse_spaces (ne : nodes ≠ []) (hmem : ' ' ∈ [' '].intercalate (nodes.map text)) :
    parseMultipleMultiaddrs R ([' '].intercalate (nodes.map text)) = .ok (nodes.map addr) := by
  have habsent : ',' ∉ [' '].intercalate (nodes.map text) := by
    intro mem
    rcases mem_intercalate mem with e | ⟨t, ht, hc⟩
    · cases e
    · obtain ⟨node, _, rfl⟩ := List.mem_map.mp ht
      exact (mem_text hc).1 rfl
  rw [parseMultipleMultiaddrs, if_neg (by simpa using habsent),
    if_pos (List.contains_iff_mem.mpr hmem), splitWhitespace_texts ne, parseEach_texts]

end Bootnode

/-- In every format the list of bootnodes is read as it was written, if and only if no address has a
peer id and no host is named as a protocol without an argument. -/
theorem parseMultipleMultiaddrs_iff {Arg : Type} {R : Readers Arg} (sound : R.Sound)
    {nodes : List (Bootnode R)} (ne : nodes ≠ []) :
    (∀ format : ListFormat, parseMultipleMultiaddrs R (format.join (nodes.map (·.text))) =
        .ok (nodes.map (·.addr))) ↔
      ∀ node ∈ nodes, node.Separable := by
  have hconcat := Bootnode.parse_concatenated sound ne
  constructor
  · intro h
    exact hconcat.mp (h .concatenated)
  · intro separable format
    cases format with
    | commas =>
      rcases Bootnode.intercalate_cases ',' ne with e | mem
      · exact (congrArg (parseMultipleMultiaddrs R) e).trans (hconcat.mpr separable)
      · exact Bootnode.parse_commas ne mem
    | spaces =>
      rcases Bootnode.intercalate_cases ' ' ne with e | mem
      · exact (congrArg (parseMultipleMultiaddrs R) e).trans (hconcat.mpr separable)
      · exact Bootnode.parse_spaces ne mem
    | concatenated => exact hconcat.mpr separable

/-- The base58 form of a peer id. -/
def toyPeerId : Text := "QmYyQSo1c1Ym7orWxLYvCrM2EmxFTANf8wXmmE7DWjhx5N".toList

/-- A library for closed examples, which reads one argument of each kind. -/
def Readers.toy : Readers Text where
  ip4 text := if text = "1.2.3.4".toList then some text else none
  ip6 text := if text = "::1".toList then some text else none
  name host := host
  port text := if text = "1".toList then some text else none
  peerId text := if text = toyPeerId then some text else none
  others _ := none

lemma Readers.toy_sound : Readers.toy.Sound := by
  intro text arg e
  simp only [toy] at e
  split at e
  case isTrue h =>
    subst h
    rfl
  case isFalse => cases e

/-- An address with a host that is named, and one with a peer id. -/
def Bootnode.toy : Bool → Bootnode Readers.toy
  | true =>
    { net := .dns
      host := "p2p".toList
      transport := .tcp
      port := "1".toList
      peerId := none
      addr := [⟨"dns".toList, some "p2p".toList⟩, ⟨"tcp".toList, some "1".toList⟩]
      plain := by decide
      valid := by decide }
  | false =>
    { net := .ip4
      host := "1.2.3.4".toList
      transport := .udp
      port := "1".toList
      peerId := some toyPeerId
      addr := [⟨"ip4".toList, some "1.2.3.4".toList⟩, ⟨"udp".toList, some "1".toList⟩,
        ⟨"p2p".toList, some toyPeerId⟩]
      plain := by decide
      valid := by decide }

/-- Two addresses with a host named `p2p`. -/
theorem parseMultipleMultiaddrs_named :
    ListFormat.concatenated.join ([Bootnode.toy true, .toy true].map (·.text)) =
        "/dns/p2p/tcp/1/dns/p2p/tcp/1".toList ∧
      ∀ format : ListFormat, parseMultipleMultiaddrs .toy
        (format.join ([Bootnode.toy true, .toy true].map (·.text))) =
          .ok ([Bootnode.toy true, .toy true].map (·.addr)) := by
  refine ⟨by decide, (parseMultipleMultiaddrs_iff Readers.toy_sound (List.cons_ne_nil _ _)).mpr ?_⟩
  have separable : (Bootnode.toy true).Separable := by
    refine ⟨rfl, ?_⟩
    rintro (e | e)
    · revert e
      decide
    · revert e
      decide
  simp [separable]

/-- A single address with a peer id is read as two. -/
theorem parseMultipleMultiaddrs_fails :
    ¬ ∀ (Arg : Type) (R : Readers Arg) (nodes : List (Bootnode R)) (format : ListFormat),
      R.Sound → nodes ≠ [] →
      parseMultipleMultiaddrs R (format.join (nodes.map (·.text))) =
        .ok (nodes.map (·.addr)) := by
  intro all
  have h := all Text .toy [Bootnode.toy false] .commas Readers.toy_sound (List.cons_ne_nil _ _)
  have split : parseMultipleMultiaddrs .toy (ListFormat.commas.join [(Bootnode.toy false).text]) =
      .ok [[⟨"ip4".toList, some "1.2.3.4".toList⟩, ⟨"udp".toList, some "1".toList⟩],
        [⟨"p2p".toList, some toyPeerId⟩]] := by decide +kernel
  rw [List.map_singleton, split] at h
  cases h

end Alys
