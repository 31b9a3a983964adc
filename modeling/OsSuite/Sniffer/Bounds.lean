import OsSuite.Sniffer.Headers

/-!
# Bounds — how far the decoders read

No function of the sniffer compares an offset with `caplen`: the lengths it
goes by are those the frame claims. One lemma per decoder says how far it
reads (`fits_tcp`, `fits_ipv4`, …); together they say for which frames all
of it stays inside the captured bytes (`decoders_fit_iff`).
-/

namespace OsSuite.Sniffer

open Decode

/-- A frame as `pcap_loop` hands it over: the header, and the memory at
`packet`, of which the first `caplen` bytes are the frame. -/
structure Frame where
  hdr : PktHdr
  mem : Nat → UInt8

namespace Frame

/-- The number of captured bytes. -/
def size (f : Frame) : Nat := f.hdr.caplen.toNat

/-- The memory of a stored copy agrees with the frame on the captured
bytes. -/
def Copied (f : Frame) (m : Nat → UInt8) : Prop := ∀ o, o < f.size → m o = f.mem o

/-- **All decoders stay inside the captured bytes**: `pckt_handler` with
whatever it calls, and `print_packet_summary` and `Print_Ethernet` on the
stored copy. -/
def DecodersFit (f : Frame) : Prop :=
  (∀ filter, Fits f.size f.mem (pcktHandler filter f.hdr.caplen)) ∧
    ∀ m, f.Copied m →
      (∀ priorSrc priorDst, Fits f.size m (printPacketSummary priorSrc priorDst)) ∧
        Fits f.size m printEthernet

end Frame

/-! ## What the frame claims about itself -/

/-- The first `min 64 len` bytes of a payload of `len` bytes at `o` have
been captured. -/
def PayloadCovered (n o : Nat) (len : Int) : Prop := len ≤ 0 ∨ (o : Int) + min 64 len ≤ n

/-- The header at `o` and the start of its payload have been captured,
where `len` is what is left for both. -/
def Layer4Covered (n : Nat) (m : Nat → UInt8) (proto : UInt8) (o : Nat) (len : Int) : Prop :=
  if proto = ipprotoTcp then
    o + 18 ≤ n ∧
      PayloadCovered n (o + thOff (m (o + 12)) * 4) (len - (thOff (m (o + 12)) * 4 : Nat))
  else if proto = ipprotoUdp then o + 8 ≤ n ∧ PayloadCovered n (o + 8) (len - 8)
  else True

/-- The number of two bytes at `o`. -/
def be16 (m : Nat → UInt8) (o : Nat) : Nat := (m o).toNat * 256 + (m (o + 1)).toNat

/-- **The frame is as long as it claims to be**, as far as the decoders
go. -/
def Frame.Covered (f : Frame) : Prop :=
  14 ≤ f.size ∧
    if be16 f.mem 12 = ethertypeIp then
      34 ≤ f.size ∧ Layer4Covered f.size f.mem (f.mem 23) (14 + ipHl (f.mem 14) * 4)
        ((be16 f.mem 16 : Int) - (ipHl (f.mem 14) * 4 : Nat))
    else if be16 f.mem 12 = ethertypeIpv6 then
      54 ≤ f.size ∧ Layer4Covered f.size f.mem (f.mem 20) 54 (be16 f.mem 18)
    else if be16 f.mem 12 = ethertypeArp then 42 ≤ f.size
    else True

/-! ## The reach of each decoder -/

section
variable {n : Nat} {m : Nat → UInt8}

@[simp] theorem eval_be_two (o : Nat) : (be o 2).eval m = be16 m o := by
  simp [be16, ofBytes, List.range'_succ, Nat.mul_comm]

theorem fits_handlePayload {o : Nat} {len : BitVec 32} :
    Fits n m (handlePayload o len) ↔ PayloadCovered n o len.toInt := by
  unfold handlePayload PayloadCovered
  split
  · rename_i hneg
    exact iff_of_true (fits_pure _) (.inl hneg)
  · rename_i hpos
    rw [fits_bytes]
    split <;> omega

theorem toInt_short {k : Nat} (hk : k < 2 ^ 16) : (BitVec.ofNat 32 k).toInt = k := by
  rw [BitVec.toInt_ofNat', Int.bmod_def]
  omega

/-- A difference of two short lengths, computed without a sign and read
with one. -/
theorem toInt_sub_short {x : BitVec 32} {k : Nat} (hlow : -(2 ^ 16) ≤ x.toInt)
    (hhigh : x.toInt < 2 ^ 16) (hk : k < 2 ^ 16) :
    (x - BitVec.ofNat 32 k).toInt = x.toInt - k := by
  rw [BitVec.toInt_sub, toInt_short hk, Int.bmod_def]
  omega

theorem thOff_lt (b : UInt8) : thOff b < 16 := by
  have := b.toNat_lt
  unfold thOff
  omega

theorem ipHl_lt (b : UInt8) : ipHl b < 16 := Nat.mod_lt _ (by decide)

theorem be16_lt (o : Nat) : be16 m o < 2 ^ 16 := by
  have h₁ := (m o).toNat_lt
  have h₂ := (m (o + 1)).toNat_lt
  unfold be16
  omega

variable {o : Nat} {len : BitVec 32}

theorem fits_udp (hlow : -(2 ^ 16) ≤ len.toInt) (hhigh : len.toInt < 2 ^ 16) :
    Fits n m (udp o len) ↔ o + 8 ≤ n ∧ PayloadCovered n (o + 8) (len.toInt - 8) := by
  have hlen : (len - 8).toInt = len.toInt - 8 := toInt_sub_short hlow hhigh (by decide)
  simp only [udp, fits_bind, fits_be, fits_pure, fits_handlePayload, hlen, and_true]
  constructor
  · rintro ⟨-, -, -, h, hp⟩
    exact ⟨by omega, hp⟩
  · rintro ⟨h, hp⟩
    exact ⟨by omega, by omega, by omega, by omega, hp⟩

theorem fits_tcp (hlow : -(2 ^ 16) ≤ len.toInt) (hhigh : len.toInt < 2 ^ 16) :
    Fits n m (tcp o len) ↔ o + 18 ≤ n ∧ PayloadCovered n (o + thOff (m (o + 12)) * 4)
      (len.toInt - (thOff (m (o + 12)) * 4 : Nat)) := by
  have hoff := thOff_lt (m (o + 12))
  have hlen := toInt_sub_short (k := thOff (m (o + 12)) * 4) hlow hhigh (by omega)
  simp only [tcp, fits_bind, fits_be, fits_byte, fits_pure, fits_handlePayload, eval_byte, hlen,
    and_true]
  constructor
  · rintro ⟨-, -, -, -, -, -, -, h, hp⟩
    exact ⟨by omega, hp⟩
  · rintro ⟨h, hp⟩
    exact ⟨by omega, by omega, by omega, by omega, by omega, by omega, by omega, by omega, hp⟩

theorem fits_layer4 {proto : UInt8} (hlow : -(2 ^ 16) ≤ len.toInt) (hhigh : len.toInt < 2 ^ 16) :
    Fits n m (layer4 proto o len) ↔ Layer4Covered n m proto o len.toInt := by
  unfold layer4 Layer4Covered
  split
  · simp only [fits_bind, fits_pure, and_true]
    exact fits_tcp hlow hhigh
  · split
    · simp only [fits_bind, fits_pure, and_true]
      exact fits_udp hlow hhigh
    · exact iff_of_true (fits_pure _) trivial

theorem fits_ipv4 : Fits n m (ipv4 o) ↔ o + 20 ≤ n ∧
    Layer4Covered n m (m (o + 9)) (o + ipHl (m o) * 4)
      ((be16 m (o + 2) : Int) - (ipHl (m o) * 4 : Nat)) := by
  have hhl := ipHl_lt (m o)
  have hlt := be16_lt (m := m) (o + 2)
  have hfull := toInt_short hlt
  have hlen : (BitVec.ofNat 32 (be16 m (o + 2)) - BitVec.ofNat 32 (ipHl (m o) * 4)).toInt =
      be16 m (o + 2) - (ipHl (m o) * 4 : Nat) := by
    rw [toInt_sub_short (by omega) (by omega) (by omega), hfull]
  have hl4 : Fits n m (layer4 (m (o + 9)) (o + ipHl (m o) * 4)
      (BitVec.ofNat 32 (be16 m (o + 2)) - BitVec.ofNat 32 (ipHl (m o) * 4))) ↔ _ :=
    fits_layer4 (by omega) (by omega)
  rw [hlen] at hl4
  simp only [ipv4, fits_bind, fits_bytes, fits_be, fits_byte, fits_pure, eval_byte, eval_be_two,
    and_true, hl4]
  constructor
  · rintro ⟨-, h, -, -, -, -, -, -, hp⟩
    exact ⟨by omega, hp⟩
  · rintro ⟨h, hp⟩
    exact ⟨by omega, by omega, by omega, by omega, by omega, by omega, by omega, by omega, hp⟩

theorem fits_ipv6 : Fits n m (ipv6 o) ↔ o + 40 ≤ n ∧
    Layer4Covered n m (m (o + 6)) (o + 40) (be16 m (o + 4)) := by
  have hlt := be16_lt (m := m) (o + 4)
  have hlen := toInt_short hlt
  have hl4 : Fits n m (layer4 (m (o + 6)) (o + 40) (BitVec.ofNat 32 (be16 m (o + 4)))) ↔ _ :=
    fits_layer4 (by omega) (by omega)
  rw [hlen] at hl4
  simp only [ipv6, fits_bind, fits_bytes, fits_be, fits_byte, fits_pure, eval_byte, eval_be_two,
    and_true, hl4]
  constructor
  · rintro ⟨-, h, -, -, -, -, hp⟩
    exact ⟨by omega, hp⟩
  · rintro ⟨h, hp⟩
    exact ⟨by omega, by omega, by omega, by omega, by omega, by omega, hp⟩

theorem fits_arp : Fits n m (arp o) ↔ o + 28 ≤ n := by
  simp only [arp, fits_bind, fits_bytes, fits_be, fits_byte, fits_pure, and_true, ethAlen]
  omega

/-- What `Print_Ethernet` reads is the frame as it claims to be. -/
theorem fits_printEthernet (f : Frame) : Fits f.size f.mem printEthernet ↔ f.Covered := by
  have hl3 : Fits f.size f.mem (layer3 (be16 f.mem 12)) ↔
      if be16 f.mem 12 = ethertypeIp then
        34 ≤ f.size ∧ Layer4Covered f.size f.mem (f.mem 23) (14 + ipHl (f.mem 14) * 4)
          ((be16 f.mem 16 : Int) - (ipHl (f.mem 14) * 4 : Nat))
      else if be16 f.mem 12 = ethertypeIpv6 then
        54 ≤ f.size ∧ Layer4Covered f.size f.mem (f.mem 20) 54 (be16 f.mem 18)
      else if be16 f.mem 12 = ethertypeArp then 42 ≤ f.size
      else True := by
    unfold layer3
    split
    · simp only [fits_bind, fits_pure, and_true, fits_ipv4]
      exact Iff.rfl
    · split
      · simp only [fits_bind, fits_pure, and_true, fits_ipv6]
        exact Iff.rfl
      · split
        · simp only [fits_bind, fits_pure, and_true, fits_arp]
          exact Iff.rfl
        · exact iff_of_true (fits_pure _) trivial
  unfold Frame.Covered
  rw [← hl3]
  simp only [printEthernet, fits_bind, fits_bytes, fits_be, fits_pure, eval_be_two, and_true,
    ethAlen]
  constructor
  · rintro ⟨-, -, h, hp⟩
    exact ⟨by omega, hp⟩
  · rintro ⟨h, hp⟩
    exact ⟨by omega, by omega, by omega, hp⟩

/-- The header of layer 4 has been captured up to the ports. -/
theorem ports_of_covered {proto : UInt8} {o : Nat} {len : Int} (h : Layer4Covered n m proto o len)
    (hp : proto = ipprotoTcp ∨ proto = ipprotoUdp) : o + 4 ≤ n := by
  unfold Layer4Covered at h
  split at h
  · exact Nat.le_trans (by omega) h.1
  · rename_i htcp
    rw [if_pos (hp.resolve_left htcp)] at h
    exact Nat.le_trans (by omega) h.1

theorem fits_classifyPorts {proto : UInt8} {o : Nat}
    (h : proto = ipprotoTcp ∨ proto = ipprotoUdp → o + 4 ≤ n) :
    Fits n m (classifyPorts proto o) := by
  unfold classifyPorts
  split
  · rename_i hp
    have := h (.inl hp)
    simp only [fits_bind, fits_be, fits_pure, and_true]
    omega
  · split
    · rename_i hp
      have := h (.inr hp)
      simp only [fits_bind, fits_be, fits_pure, and_true]
      omega
    · exact fits_pure _

theorem fits_summaryPorts {proto : UInt8} {o : Nat} {l3 : L3Proto} {src dst : List UInt8}
    (h : proto = ipprotoTcp ∨ proto = ipprotoUdp → o + 4 ≤ n) :
    Fits n m (summaryPorts l3 proto src dst o) := by
  unfold summaryPorts
  split
  · rename_i hp
    have := h (.inl hp)
    simp only [fits_bind, fits_be, fits_pure, and_true]
    omega
  · split
    · rename_i hp
      have := h (.inr hp)
      simp only [fits_bind, fits_be, fits_pure, and_true]
      omega
    · exact fits_pure _

end

namespace Frame

variable {f : Frame}

theorem Covered.fits_classify (h : f.Covered) : Fits f.size f.mem classify := by
  obtain ⟨hsize, h⟩ := h
  simp only [classify, fits_bind, fits_be, eval_be_two]
  refine ⟨by omega, ?_⟩
  split
  · exact fits_pure _
  · split
    · rename_i hip
      rw [if_pos hip] at h
      simp only [fits_bind, fits_byte, eval_byte, etherHeaderLen]
      exact ⟨by omega, by omega, fits_classifyPorts (ports_of_covered h.2)⟩
    · rename_i hip
      rw [if_neg hip] at h
      split
      · rename_i hip6
        rw [if_pos hip6] at h
        simp only [fits_bind, fits_byte, eval_byte, etherHeaderLen]
        exact ⟨by omega, fits_classifyPorts (ports_of_covered h.2)⟩
      · exact fits_pure _

theorem Covered.fits_printPacketSummary (h : f.Covered) (priorSrc priorDst : List UInt8) :
    Fits f.size f.mem (printPacketSummary priorSrc priorDst) := by
  obtain ⟨hsize, h⟩ := h
  simp only [printPacketSummary, fits_bind, fits_be, eval_be_two]
  refine ⟨by omega, ?_⟩
  split
  · rename_i hip
    rw [if_pos hip] at h
    simp only [fits_bind, fits_bytes, fits_byte, eval_byte, etherHeaderLen]
    exact ⟨by omega, by omega, by omega, by omega, fits_summaryPorts (ports_of_covered h.2)⟩
  · rename_i hip
    rw [if_neg hip] at h
    split
    · rename_i harp
      have hip6 : be16 f.mem 12 ≠ ethertypeIpv6 := by
        rw [harp]
        decide
      rw [if_neg hip6, if_pos harp] at h
      simp only [fits_bind, fits_bytes, fits_pure, etherHeaderLen, and_true]
      omega
    · split
      · rename_i hip6
        rw [if_pos hip6] at h
        simp only [fits_bind, fits_bytes, fits_byte, eval_byte, etherHeaderLen]
        exact ⟨by omega, by omega, by omega, fits_summaryPorts (ports_of_covered h.2)⟩
      · exact fits_pure _

/-- The first raw bytes are the only ones that are counted against
`caplen`. -/
theorem fits_firstRawBytes : Fits f.size f.mem (firstRawBytes f.hdr.caplen) := by
  have hint : f.hdr.caplen.toInt ≤ f.size := by
    rw [BitVec.toInt_eq_toNat_cond]
    unfold size
    split <;> omega
  unfold firstRawBytes
  split
  · exact fits_pure _
  · rw [fits_bytes]
    split <;> omega

theorem Covered.fits_pcktHandler (h : f.Covered) (filter : Filter) :
    Fits f.size f.mem (pcktHandler filter f.hdr.caplen) := by
  simp only [pcktHandler, fits_bind]
  refine ⟨h.fits_classify, ?_⟩
  split
  · simp only [fits_bind, fits_pure, and_true]
    exact ⟨fits_firstRawBytes, (fits_printEthernet f).mpr h⟩
  · exact fits_pure _

/-- **The decoders stay inside the captured bytes exactly for the frames
that are as long as they claim to be.** -/
theorem decoders_fit_iff (f : Frame) : f.DecodersFit ↔ f.Covered := by
  constructor
  · rintro ⟨-, hstored⟩
    exact (fits_printEthernet f).mp (hstored f.mem fun _ _ => rfl).2
  · intro h
    refine ⟨h.fits_pcktHandler, fun m hm => ⟨fun src dst => ?_, ?_⟩⟩
    · exact (h.fits_printPacketSummary src dst).congr hm
    · exact ((fits_printEthernet f).mpr h).congr hm

/-- **A frame of 14 bytes that claims to be IPv4.** The classifier reads
the length of the header behind it. -/
theorem decoders_overrun : ∃ f : Frame, f.size = 14 ∧
    14 ∈ (pcktHandler (fun _ => '1') f.hdr.caplen).reads f.mem ∧ ¬ f.DecodersFit := by
  refine ⟨⟨⟨0, 0, 14, 14⟩, fun o => if o = 12 then 8 else 0⟩, rfl, by decide +kernel, fun h => ?_⟩
  have hlt := h.1 (fun _ => '1') 14 (by decide +kernel)
  exact absurd hlt (by decide)

end Frame

end OsSuite.Sniffer
