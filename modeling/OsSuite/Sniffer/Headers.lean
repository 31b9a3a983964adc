import OsSuite.Lib.Decode

/-!
# Headers — the decoders of the packet sniffer

`Terminal-Packet-Sniffer/func.c`. Every function that looks into a frame is
a `Decode` program: it takes the offset of its header from the start of
the frame and returns what it prints. The structures of `netinet` are
given by the offsets of their fields; a bit-field is its byte.

None of the functions knows how long the frame is. `caplen` is read by
`pckt_handler` for the first raw bytes and by `CompleteFrame`, nowhere
else.
-/

namespace OsSuite.Sniffer

open Decode

/-! ## Numbers of the protocols -/

def ethertypeIp : Nat := 0x0800
def ethertypeArp : Nat := 0x0806
def ethertypeIpv6 : Nat := 0x86dd

/-- `sizeof(struct ether_header)` -/
def etherHeaderLen : Nat := 14
def ethAlen : Nat := 6

def ipprotoIcmp : UInt8 := 1
def ipprotoTcp : UInt8 := 6
def ipprotoUdp : UInt8 := 17

def getPortName (port : Nat) : String :=
  match port with
  | 80 => " (HTTP)"
  | 443 => " (HTTPS)"
  | 53 => " (DNS)"
  | 21 => " (FTP)"
  | 22 => " (SSH)"
  | 25 => " (SMTP)"
  | _ => ""

def getAppProtocolName (port : Nat) : String :=
  match port with
  | 80 => "HTTP"
  | 443 => "HTTPS/TLS"
  | 53 => "DNS"
  | _ => "Data"

/-! ## Layer 4 -/

/-- The line about layer 7 and the bytes below it. -/
structure Payload where
  appProto : String
  port : Nat
  /-- An `int`: it may be negative. -/
  len : Int
  data : List UInt8
  deriving DecidableEq, Repr

/-- The bytes that are shown. `len` is an `int`. -/
def handlePayload (payload : Nat) (len : BitVec 32) : Decode (List UInt8) :=
  if len.toInt ≤ 0 then pure []
  else bytes payload (if 64 < len.toInt then 64 else len.toInt.toNat)

structure UdpShown where
  srcPort : Nat
  dstPort : Nat
  length : Nat
  checksum : Nat
  payload : Payload
  deriving DecidableEq, Repr

def udp (packet : Nat) (ipPayloadLen : BitVec 32) : Decode UdpShown := do
  let srcPort ← be packet 2
  let dstPort ← be (packet + 2) 2
  let uhUlen ← be (packet + 4) 2
  let uhSum ← be (packet + 6) 2
  let payloadLen := ipPayloadLen - 8
  let data ← handlePayload (packet + 8) payloadLen
  pure { srcPort, dstPort, length := uhUlen, checksum := uhSum,
         payload := ⟨getAppProtocolName dstPort, dstPort, payloadLen.toInt, data⟩ }

inductive TcpFlag where
  | syn
  | ack
  | fin
  | rst
  | push
  | urg
  deriving DecidableEq, Repr

/-- The bit of `th_flags`. -/
def TcpFlag.bit : TcpFlag → UInt8
  | fin => 0x01
  | syn => 0x02
  | rst => 0x04
  | push => 0x08
  | ack => 0x10
  | urg => 0x20

/-- The flags that are set, in the order in which they are tested. -/
def tcpFlags (thFlags : UInt8) : List TcpFlag :=
  [.syn, .ack, .fin, .rst, .push, .urg].filter fun f => thFlags &&& f.bit ≠ 0

structure TcpShown where
  srcPort : Nat
  dstPort : Nat
  seq : Nat
  ack : Nat
  flags : List TcpFlag
  window : Nat
  checksum : Nat
  headerLen : Nat
  payload : Payload
  deriving DecidableEq, Repr

/-- `th_off` is the upper half of its byte. -/
def thOff (b : UInt8) : Nat := b.toNat / 16

def tcp (packet : Nat) (ipPayloadLen : BitVec 32) : Decode TcpShown := do
  let srcPort ← be packet 2
  let dstPort ← be (packet + 2) 2
  let off ← byte (packet + 12)
  let tcpHeaderLen := thOff off * 4
  let thSeq ← be (packet + 4) 4
  let thAck ← be (packet + 8) 4
  let thFlags ← byte (packet + 13)
  let thWin ← be (packet + 14) 2
  let thSum ← be (packet + 16) 2
  -- an `int` minus an `unsigned`, stored in an `int`
  let payloadLen := ipPayloadLen - BitVec.ofNat 32 tcpHeaderLen
  let data ← handlePayload (packet + tcpHeaderLen) payloadLen
  pure { srcPort, dstPort, seq := thSeq, ack := thAck, flags := tcpFlags thFlags, window := thWin,
         checksum := thSum, headerLen := tcpHeaderLen,
         payload := ⟨getAppProtocolName dstPort, dstPort, payloadLen.toInt, data⟩ }

/-- What is shown of layer 4. -/
inductive Layer4 where
  | tcp (t : TcpShown)
  | udp (u : UdpShown)
  | other
  deriving DecidableEq, Repr

/-- The last statements of `IPv4` and `IPv6`. -/
def layer4 (proto : UInt8) (packet : Nat) (ipPayloadLen : BitVec 32) : Decode Layer4 :=
  if proto = ipprotoTcp then do
    let t ← tcp packet ipPayloadLen
    pure (.tcp t)
  else if proto = ipprotoUdp then do
    let u ← udp packet ipPayloadLen
    pure (.udp u)
  else pure .other

/-! ## Layer 3 -/

/-- `ip_hl` is the lower half of its byte. -/
def ipHl (b : UInt8) : Nat := b.toNat % 16

structure Ipv4Shown where
  src : List UInt8
  dst : List UInt8
  protocol : UInt8
  ttl : UInt8
  id : Nat
  totalLength : Nat
  headerLength : Nat
  df : Bool
  mf : Bool
  layer4 : Layer4
  deriving DecidableEq, Repr

def ipv4 (packet : Nat) : Decode Ipv4Shown := do
  let src ← bytes (packet + 12) 4
  let dst ← bytes (packet + 16) 4
  let ipP ← byte (packet + 9)
  let ipTtl ← byte (packet + 8)
  let ipId ← be (packet + 4) 2
  let ipLen ← be (packet + 2) 2
  let hl ← byte packet
  let flags ← be (packet + 6) 2
  let ipHeaderLen := ipHl hl * 4
  -- an `int` minus an `unsigned`, stored in an `int`
  let ipPayloadLen := BitVec.ofNat 32 ipLen - BitVec.ofNat 32 ipHeaderLen
  let l4 ← layer4 ipP (packet + ipHeaderLen) ipPayloadLen
  pure { src, dst, protocol := ipP, ttl := ipTtl, id := ipId, totalLength := ipLen,
         headerLength := ipHeaderLen, df := flags.testBit 14, mf := flags.testBit 13,
         layer4 := l4 }

structure Ipv6Shown where
  src : List UInt8
  dst : List UInt8
  nextHeader : UInt8
  hopLimit : UInt8
  trafficClass : Nat
  flowLabel : Nat
  payloadLength : Nat
  layer4 : Layer4
  deriving DecidableEq, Repr

def ipv6 (packet : Nat) : Decode Ipv6Shown := do
  let src ← bytes (packet + 8) 16
  let dst ← bytes (packet + 24) 16
  let ip6Nxt ← byte (packet + 6)
  let flow ← be packet 4
  let ip6Hlim ← byte (packet + 7)
  let ip6Plen ← be (packet + 4) 2
  let l4 ← layer4 ip6Nxt (packet + 40) (BitVec.ofNat 32 ip6Plen)
  pure { src, dst, nextHeader := ip6Nxt, hopLimit := ip6Hlim,
         trafficClass := flow / 2 ^ 20 % 2 ^ 8, flowLabel := flow % 2 ^ 20,
         payloadLength := ip6Plen, layer4 := l4 }

structure ArpShown where
  operation : Nat
  senderIp : List UInt8
  targetIp : List UInt8
  senderMac : List UInt8
  targetMac : List UInt8
  hwType : Nat
  protoType : Nat
  hwLen : UInt8
  protoLen : UInt8
  deriving DecidableEq, Repr

def arp (packet : Nat) : Decode ArpShown := do
  let senderIp ← bytes (packet + 14) 4
  let targetIp ← bytes (packet + 24) 4
  let arOp ← be (packet + 6) 2
  let senderMac ← bytes (packet + 8) ethAlen
  let targetMac ← bytes (packet + 18) ethAlen
  let arHrd ← be packet 2
  let arPro ← be (packet + 2) 2
  let arHln ← byte (packet + 4)
  let arPln ← byte (packet + 5)
  pure { operation := arOp, senderIp, targetIp, senderMac, targetMac, hwType := arHrd,
         protoType := arPro, hwLen := arHln, protoLen := arPln }

/-- What is shown of layer 3. -/
inductive Layer3 where
  | ipv4 (p : Ipv4Shown)
  | ipv6 (p : Ipv6Shown)
  | arp (p : ArpShown)
  | unknown
  deriving DecidableEq, Repr

/-- The last statements of `pckt_handler` and `Print_Ethernet`. -/
def layer3 (etherType : Nat) : Decode Layer3 :=
  if etherType = ethertypeIp then do
    let p ← ipv4 etherHeaderLen
    pure (.ipv4 p)
  else if etherType = ethertypeIpv6 then do
    let p ← ipv6 etherHeaderLen
    pure (.ipv6 p)
  else if etherType = ethertypeArp then do
    let p ← arp etherHeaderLen
    pure (.arp p)
  else pure .unknown

/-! ## The frame -/

/-- `struct pcap_pkthdr` -/
structure PktHdr where
  tvSec : Int
  tvUsec : Int
  caplen : BitVec 32
  len : BitVec 32
  deriving DecidableEq, Repr

structure EthernetShown where
  dst : List UInt8
  src : List UInt8
  etherType : Nat
  layer3 : Layer3
  deriving DecidableEq, Repr

def printEthernet : Decode EthernetShown := do
  let dst ← bytes 0 ethAlen
  let src ← bytes 6 ethAlen
  let etherType ← be 12 2
  let l3 ← layer3 etherType
  pure { dst, src, etherType, layer3 := l3 }

/-- The bytes of the hex dump. `len` is an `int`. -/
def completeFrame (len : BitVec 32) : Decode (List UInt8) :=
  if len.toInt ≤ 0 then pure [] else bytes 0 len.toInt.toNat

/-- What the classifier of `pckt_handler` finds out. -/
structure Class where
  isArp : Bool
  isTcp : Bool
  isUdp : Bool
  src : Nat
  dst : Nat
  deriving DecidableEq, Repr

/-- The ports, which are the first two fields of both headers. -/
def classifyPorts (proto : UInt8) (l4Packet : Nat) : Decode Class :=
  if proto = ipprotoTcp then do
    let src ← be l4Packet 2
    let dst ← be (l4Packet + 2) 2
    pure ⟨false, true, false, src, dst⟩
  else if proto = ipprotoUdp then do
    let src ← be l4Packet 2
    let dst ← be (l4Packet + 2) 2
    pure ⟨false, false, true, src, dst⟩
  else pure ⟨false, false, false, 0, 0⟩

/-- The classifier of `pckt_handler`. -/
def classify : Decode Class := do
  let ether ← be 12 2
  if ether = ethertypeArp then pure ⟨true, false, false, 0, 0⟩
  else if ether = ethertypeIp then do
    let hl ← byte etherHeaderLen
    let ipP ← byte (etherHeaderLen + 9)
    classifyPorts ipP (etherHeaderLen + ipHl hl * 4)
  else if ether = ethertypeIpv6 then do
    let ip6Nxt ← byte (etherHeaderLen + 6)
    classifyPorts ip6Nxt (etherHeaderLen + 40)
  else pure ⟨false, false, false, 0, 0⟩

/-- The characters of `filter`: HTTP HTTPS DNS ARP TCP UDP. -/
abbrev Filter := Fin 6 → Char

/-- The decision of `pckt_handler` to print. The loop looks at `filter[0]`
six times. -/
def Filter.prints (filter : Filter) (c : Class) : Bool :=
  let flag := (List.range 6).foldl (fun flag _ => if filter 0 = '0' then false else flag) true
  flag
    || (filter 0 = '1' && c.isTcp && (c.src = 80 || c.dst = 80))
    || (filter 1 = '1' && c.isTcp && (c.src = 443 || c.dst = 443))
    || (filter 2 = '1' && (c.src = 53 || c.dst = 53))
    || (filter 3 = '1' && c.isArp)
    || (filter 4 = '1' && c.isTcp)
    || (filter 5 = '1' && c.isUdp)

/-- What can be selected, in the order of the characters. -/
inductive Proto where
  | http
  | https
  | dns
  | arp
  | tcp
  | udp
  deriving DecidableEq, Repr

/-- The index of its character in `filter`. -/
def Proto.bit : Proto → Fin 6
  | .http => 0
  | .https => 1
  | .dns => 2
  | .arp => 3
  | .tcp => 4
  | .udp => 5

structure PacketShown where
  firstBytes : List UInt8
  ethernet : EthernetShown
  deriving DecidableEq, Repr

/-- The first raw bytes. `num_of_bytes` is an `int`. -/
def firstRawBytes (caplen : BitVec 32) : Decode (List UInt8) :=
  if caplen.toInt ≤ 0 then pure []
  else bytes 0 (if 16 < caplen.toInt then 16 else caplen.toInt.toNat)

/-- What `pckt_handler` reads of a frame, and what it prints. -/
def pcktHandler (filter : Filter) (caplen : BitVec 32) : Decode (Option PacketShown) := do
  let c ← classify
  if filter.prints c then do
    let firstBytes ← firstRawBytes caplen
    let ethernet ← printEthernet
    pure (some { firstBytes, ethernet })
  else pure none

/-! ## The summary -/

inductive L3Proto where
  | ipv4
  | arp
  | ipv6
  | unknown
  deriving DecidableEq, Repr

inductive L4Proto where
  | tcp
  | udp
  | na
  deriving DecidableEq, Repr

/-- One of the columns `final_src` and `final_dst`. -/
inductive Endpoint where
  | address (a : List UInt8)
  | withPort (a : List UInt8) (port : Nat)
  /-- The buffer was not written: it shows what the stack held. -/
  | prior (s : List UInt8)
  deriving DecidableEq, Repr

structure Summary where
  l3Proto : L3Proto
  l4Proto : L4Proto
  finalSrc : Endpoint
  finalDst : Endpoint
  deriving DecidableEq, Repr

/-- The part about layer 4. -/
def summaryPorts (l3 : L3Proto) (proto : UInt8) (src dst : List UInt8) (l4Packet : Nat) :
    Decode Summary :=
  if proto = ipprotoTcp then do
    let sport ← be l4Packet 2
    let dport ← be (l4Packet + 2) 2
    pure ⟨l3, .tcp, .withPort src sport, .withPort dst dport⟩
  else if proto = ipprotoUdp then do
    let sport ← be l4Packet 2
    let dport ← be (l4Packet + 2) 2
    pure ⟨l3, .udp, .withPort src sport, .withPort dst dport⟩
  else pure ⟨l3, .na, .address src, .address dst⟩

/-- `print_packet_summary`. The buffers `final_src` and `final_dst` are not
initialised: `priorSrc` and `priorDst` are what they hold on entry. -/
def printPacketSummary (priorSrc priorDst : List UInt8) : Decode Summary := do
  let etherType ← be 12 2
  if etherType = ethertypeIp then do
    let src ← bytes (etherHeaderLen + 12) 4
    let dst ← bytes (etherHeaderLen + 16) 4
    let hl ← byte etherHeaderLen
    let ipP ← byte (etherHeaderLen + 9)
    summaryPorts .ipv4 ipP src dst (etherHeaderLen + ipHl hl * 4)
  else if etherType = ethertypeArp then do
    let spa ← bytes (etherHeaderLen + 14) 4
    let tpa ← bytes (etherHeaderLen + 24) 4
    pure ⟨.arp, .na, .address spa, .address tpa⟩
  else if etherType = ethertypeIpv6 then do
    let src ← bytes (etherHeaderLen + 8) 16
    let dst ← bytes (etherHeaderLen + 24) 16
    let ip6Nxt ← byte (etherHeaderLen + 6)
    summaryPorts .ipv6 ip6Nxt src dst (etherHeaderLen + 40)
  else pure ⟨.unknown, .na, .prior priorSrc, .prior priorDst⟩

end OsSuite.Sniffer
