import OsSuite.Sniffer.Bounds

/-!
# Layers — what a frame carries, and the three ways it is decoded

The layers of a frame are taken apart three times in `func.c`: by the
classifier of `pckt_handler`, by the functions that display a frame
(`IPv4`, `IPv6`, `ARP` with `TCP` and `UDP`), and by
`print_packet_summary`. `carried` says once what a frame carries: the
network protocol, the transport protocol, the addresses and the ports.
The first two ways are functions of it. The third one is as well, as long
as the ethertype is one of the three that it knows: for any other one the
columns `final_src` and `final_dst` are never written
(`summary_agrees_iff`).
-/

namespace OsSuite.Sniffer

open Decode

/-! ## What a frame carries -/

/-- The protocols, addresses and ports of a frame. Without a transport
protocol the ports are 0, without a network protocol there are no
addresses. -/
structure Carried where
  net : L3Proto
  transport : L4Proto
  src : List UInt8
  dst : List UInt8
  sport : Nat
  dport : Nat
  deriving DecidableEq, Repr

/-- The `n` bytes at `o`. -/
def slice (m : Nat → UInt8) (o n : Nat) : List UInt8 := (List.range' o n).map m

def transportOf (proto : UInt8) : L4Proto :=
  if proto = ipprotoTcp then .tcp else if proto = ipprotoUdp then .udp else .na

/-- A packet between `src` and `dst` whose payload of protocol `proto` is
at `o`. TCP and UDP both begin with the two ports. -/
def carriedOver (net : L3Proto) (src dst : List UInt8) (m : Nat → UInt8) (proto : UInt8) (o : Nat) :
    Carried :=
  if transportOf proto = .na then ⟨net, .na, src, dst, 0, 0⟩
  else ⟨net, transportOf proto, src, dst, be16 m o, be16 m (o + 2)⟩

/-- **What the frame at `m` carries.** The payload of IPv4 is at the offset
that its header length gives, the one of IPv6 behind 40 bytes. -/
def carried (m : Nat → UInt8) : Carried :=
  if be16 m 12 = ethertypeIp then
    carriedOver .ipv4 (slice m 26 4) (slice m 30 4) m (m 23) (14 + ipHl (m 14) * 4)
  else if be16 m 12 = ethertypeIpv6 then
    carriedOver .ipv6 (slice m 22 16) (slice m 38 16) m (m 20) 54
  else if be16 m 12 = ethertypeArp then ⟨.arp, .na, slice m 28 4, slice m 38 4, 0, 0⟩
  else ⟨.unknown, .na, [], [], 0, 0⟩

/-- The ethertype is one that the sniffer knows. -/
def Frame.KnownType (f : Frame) : Prop :=
  be16 f.mem 12 = ethertypeIp ∨ be16 f.mem 12 = ethertypeIpv6 ∨ be16 f.mem 12 = ethertypeArp

/-- The header of the transport protocol at `o` has been captured: 20
bytes of TCP, 8 bytes of UDP. -/
def TransportFits (n : Nat) (proto : UInt8) (o : Nat) : Prop :=
  (proto = ipprotoTcp → o + 20 ≤ n) ∧ (proto = ipprotoUdp → o + 8 ≤ n)

/-- **The frame is long enough for its headers.** -/
def Frame.HeadersFit (f : Frame) : Prop :=
  14 ≤ f.size ∧
    (be16 f.mem 12 = ethertypeIp →
      34 ≤ f.size ∧ TransportFits f.size (f.mem 23) (14 + ipHl (f.mem 14) * 4)) ∧
    (be16 f.mem 12 = ethertypeIpv6 → 54 ≤ f.size ∧ TransportFits f.size (f.mem 20) 54) ∧
    (be16 f.mem 12 = ethertypeArp → 42 ≤ f.size)

/-! ## What each decoder finds -/

/-- The protocols and ports, as `pckt_handler` keeps them. -/
def Carried.classified (c : Carried) : Class :=
  ⟨c.net = .arp, c.transport = .tcp, c.transport = .udp, c.sport, c.dport⟩

/-- What is to be read from a display of layer 4. -/
def Layer4.carried (net : L3Proto) (src dst : List UInt8) : Layer4 → Carried
  | .tcp t => ⟨net, .tcp, src, dst, t.srcPort, t.dstPort⟩
  | .udp u => ⟨net, .udp, src, dst, u.srcPort, u.dstPort⟩
  | .other => ⟨net, .na, src, dst, 0, 0⟩

/-- What is to be read from a display of layer 3. -/
def Layer3.carried : Layer3 → Carried
  | .ipv4 p => p.layer4.carried .ipv4 p.src p.dst
  | .ipv6 p => p.layer4.carried .ipv6 p.src p.dst
  | .arp p => ⟨.arp, .na, p.senderIp, p.targetIp, 0, 0⟩
  | .unknown => ⟨.unknown, .na, [], [], 0, 0⟩

/-- What is to be read from a line of the summary: nothing if a column
shows what the stack held. -/
def Summary.carried : Summary → Option Carried
  | ⟨net, .na, .address src, .address dst⟩ => some ⟨net, .na, src, dst, 0, 0⟩
  | ⟨net, .tcp, .withPort src sport, .withPort dst dport⟩ => some ⟨net, .tcp, src, dst, sport, dport⟩
  | ⟨net, .udp, .withPort src sport, .withPort dst dport⟩ => some ⟨net, .udp, src, dst, sport, dport⟩
  | _ => none

/-- **The summary of the stored copy `m` agrees with the live decoders**:
it does not depend on what the stack held, it says what the display of the
frame says, and what the classifier found. -/
structure Frame.SummaryAgrees (f : Frame) (m : Nat → UInt8) : Prop where
  steady : ∀ src dst src' dst', (printPacketSummary src dst).eval m =
    (printPacketSummary src' dst').eval m
  displayed : ∀ src dst, ((printPacketSummary src dst).eval m).carried =
    some (printEthernet.eval f.mem).layer3.carried
  classified : ∀ src dst c, ((printPacketSummary src dst).eval m).carried = some c →
    classify.eval f.mem = c.classified

section
variable {m : Nat → UInt8} {net : L3Proto} {src dst : List UInt8} {proto : UInt8} {o : Nat}

theorem eval_bytes_slice (o n : Nat) : (bytes o n).eval m = slice m o n := eval_bytes o n

theorem eval_classifyPorts (hnet : net ≠ .arp) :
    (classifyPorts proto o).eval m = (carriedOver net src dst m proto o).classified := by
  unfold classifyPorts carriedOver transportOf
  split
  · simp [Carried.classified, hnet, -eval_be]
  · split <;> simp [Carried.classified, hnet, -eval_be]

/-- **The classifier** keeps the protocols and the ports. -/
theorem eval_classify : classify.eval m = (carried m).classified := by
  unfold classify carried
  rw [eval_bind, eval_be_two]
  by_cases harp : be16 m 12 = ethertypeArp
  · simp only [harp, if_true, eval_pure]
    rfl
  · simp only [harp, if_false]
    split
    · simp only [eval_bind, eval_byte]
      exact eval_classifyPorts nofun
    · split
      · simp only [eval_bind, eval_byte]
        exact eval_classifyPorts nofun
      · rfl

theorem eval_layer4 (len : BitVec 32) :
    ((layer4 proto o len).eval m).carried net src dst = carriedOver net src dst m proto o := by
  unfold layer4 carriedOver transportOf
  split
  · simp [Layer4.carried, tcp, -eval_be]
  · split
    · simp [Layer4.carried, udp, -eval_be]
    · rfl

/-- **The display** shows all of it. -/
theorem eval_layer3 : (printEthernet.eval m).layer3.carried = carried m := by
  simp only [printEthernet, eval_bind, eval_pure, eval_be_two]
  unfold layer3 carried
  split
  · simp only [eval_bind, eval_pure, Layer3.carried, ipv4, eval_bytes_slice, eval_byte]
    exact eval_layer4 _
  · split
    · simp only [eval_bind, eval_pure, Layer3.carried, ipv6, eval_bytes_slice, eval_byte]
      exact eval_layer4 _
    · split
      · simp [Layer3.carried, arp, etherHeaderLen, eval_bytes_slice, -eval_bytes]
      · rfl

theorem eval_summaryPorts :
    ((summaryPorts net proto src dst o).eval m).carried =
      some (carriedOver net src dst m proto o) := by
  unfold summaryPorts carriedOver transportOf
  split
  · simp [Summary.carried, -eval_be]
  · split <;> simp [Summary.carried, -eval_be]

/-- The two columns that a frame of unknown type leaves to the stack. -/
theorem eval_summary_unknown (h : ¬ (be16 m 12 = ethertypeIp ∨ be16 m 12 = ethertypeIpv6 ∨
    be16 m 12 = ethertypeArp)) (priorSrc priorDst : List UInt8) :
    (printPacketSummary priorSrc priorDst).eval m =
      ⟨.unknown, .na, .prior priorSrc, .prior priorDst⟩ := by
  simp only [not_or] at h
  simp [printPacketSummary, h, -eval_be]

/-- **The summary** of a frame of known type shows all of it. -/
theorem eval_summary (h : be16 m 12 = ethertypeIp ∨ be16 m 12 = ethertypeIpv6 ∨
    be16 m 12 = ethertypeArp) (priorSrc priorDst : List UInt8) :
    ((printPacketSummary priorSrc priorDst).eval m).carried = some (carried m) := by
  unfold printPacketSummary carried
  rw [eval_bind, eval_be_two]
  split
  · simp only [eval_bind, eval_bytes_slice, eval_byte]
    exact eval_summaryPorts
  · rename_i hip
    by_cases harp : be16 m 12 = ethertypeArp
    · simp [harp, ethertypeArp, ethertypeIpv6, Summary.carried, etherHeaderLen, eval_bytes_slice, -eval_bytes]
    · rcases h with h | h | h
      · exact absurd h hip
      · simp only [h, if_true]
        rw [if_neg (by decide)]
        simp only [eval_bind, eval_bytes_slice, eval_byte]
        exact eval_summaryPorts
      · exact absurd h harp

/-- The columns of a known type do not show what the stack held. -/
theorem summary_steady (h : be16 m 12 = ethertypeIp ∨ be16 m 12 = ethertypeIpv6 ∨
    be16 m 12 = ethertypeArp) (src dst src' dst' : List UInt8) :
    (printPacketSummary src dst).eval m = (printPacketSummary src' dst').eval m := by
  unfold printPacketSummary
  simp only [eval_bind, eval_be_two]
  split
  · rfl
  · split
    · rfl
    · split
      · rfl
      · rename_i hip harp hip6
        rcases h with h | h | h <;> contradiction

end

/-! ## The stored copy -/

section
variable {f : Frame} {m : Nat → UInt8}

theorem Frame.Copied.be16 (h : f.Copied m) {o : Nat} (ho : o + 2 ≤ f.size) :
    be16 m o = be16 f.mem o := by
  unfold Sniffer.be16
  rw [h o (by omega), h (o + 1) (by omega)]

theorem Frame.Copied.slice (h : f.Copied m) {o n : Nat} (ho : o + n ≤ f.size) :
    slice m o n = slice f.mem o n := by
  refine List.map_congr_left fun k hk => h k ?_
  have := (List.mem_range'_1.mp hk).2
  omega

theorem Frame.Copied.carriedOver (h : f.Copied m) {net : L3Proto} {src dst : List UInt8}
    {proto : UInt8} {o : Nat} (ho : TransportFits f.size proto o) :
    carriedOver net src dst m proto o = carriedOver net src dst f.mem proto o := by
  obtain ⟨htcp, hudp⟩ := ho
  by_cases hna : transportOf proto = .na
  · rw [Sniffer.carriedOver, Sniffer.carriedOver, if_pos hna, if_pos hna]
  · have hports : o + 4 ≤ f.size := by
      by_cases ht : proto = ipprotoTcp
      · have := htcp ht
        omega
      · by_cases hu : proto = ipprotoUdp
        · have := hudp hu
          omega
        · exact absurd (by rw [transportOf, if_neg ht, if_neg hu]) hna
    rw [Sniffer.carriedOver, Sniffer.carriedOver, if_neg hna, if_neg hna, h.be16 (by omega),
      h.be16 (by omega)]

/-- The headers are all that counts. -/
theorem Frame.Copied.carried (h : f.Copied m) (hf : f.HeadersFit) : carried m = carried f.mem := by
  obtain ⟨hsize, hip, hip6, harp⟩ := hf
  have htype : Sniffer.be16 m 12 = Sniffer.be16 f.mem 12 := h.be16 (by omega)
  unfold Sniffer.carried
  rw [htype]
  split
  · rename_i ht
    obtain ⟨hlen, hfits⟩ := hip ht
    rw [h 23 (by omega), h 14 (by omega), h.slice (by omega), h.slice (by omega),
      h.carriedOver hfits]
  · split
    · rename_i ht
      obtain ⟨hlen, hfits⟩ := hip6 ht
      rw [h 20 (by omega), h.slice (by omega), h.slice (by omega), h.carriedOver hfits]
    · split
      · rename_i ht
        have := harp ht
        rw [h.slice (by omega), h.slice (by omega)]
      · rfl

end

end OsSuite.Sniffer
