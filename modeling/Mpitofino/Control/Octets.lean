import Mpitofino.Control.PacketProcessor
import Mpitofino.Dataplane.RoundTrip

/-!
# Packets as octets

The CPU sees a packet as octets, the pipes as bits. Both read the same addresses, the same type and the same
protocol off it.
-/

namespace Mpitofino

/-- The bits of some octets, each with its most significant bit first. -/
def bitsOf (ptr : List (BitVec 8)) : List Bool := ptr.flatMap (Codec.bits 8).emit

section Bits

variable {ptr ptr' : List (BitVec 8)}

@[simp] theorem bitsOf_nil : bitsOf [] = [] := rfl

@[simp] theorem bitsOf_append (ptr ptr' : List (BitVec 8)) : bitsOf (ptr ++ ptr') = bitsOf ptr ++ bitsOf ptr' :=
  List.flatMap_append

theorem bitsOf_cons (b : BitVec 8) (ptr : List (BitVec 8)) :
    bitsOf (b :: ptr) = (Codec.bits 8).emit b ++ bitsOf ptr :=
  List.flatMap_cons

@[simp] theorem length_bitsOf (ptr : List (BitVec 8)) : (bitsOf ptr).length = 8 * ptr.length := by
  induction ptr with
  | nil => rfl
  | cons b ptr ih =>
      rw [bitsOf_cons, List.length_append, ih, Codec.length_emit, List.length_cons]
      change 8 + 8 * ptr.length = _
      omega

theorem drop_bitsOf (n : Nat) (ptr : List (BitVec 8)) : (bitsOf ptr).drop (8 * n) = bitsOf (ptr.drop n) := by
  induction n generalizing ptr with
  | zero => rfl
  | succ n ih =>
      cases ptr with
      | nil => rfl
      | cons b ptr =>
          have hstep : 8 * (n + 1) = ((Codec.bits 8).emit b).length + 8 * n := by
            rw [Codec.length_emit]
            change 8 * (n + 1) = 8 + 8 * n
            omega
          rw [bitsOf_cons, hstep, List.drop_append, List.drop_eq_nil_of_le (by omega), List.nil_append,
            Nat.add_sub_cancel_left, ih, List.drop_succ_cons]

theorem take_bitsOf (n : Nat) (ptr : List (BitVec 8)) : (bitsOf ptr).take (8 * n) = bitsOf (ptr.take n) := by
  have hsplit : bitsOf ptr = bitsOf (ptr.take n) ++ bitsOf (ptr.drop n) := by
    rw [← bitsOf_append, List.take_append_drop]
  by_cases hn : n ≤ ptr.length
  · rw [hsplit, List.take_left' (by rw [length_bitsOf, List.length_take, Nat.min_eq_left hn])]
  · rw [List.take_of_length_le (by rw [length_bitsOf]; omega), List.take_of_length_le (by omega)]

theorem packBytes_bitsOf (ptr : List (BitVec 8)) : packBytes (bitsOf ptr) = ptr := by
  induction ptr with
  | nil => rfl
  | cons b ptr ih =>
      have hbits : (Codec.bits 8).emit b = [b.getMsbD 0, b.getMsbD 1, b.getMsbD 2, b.getMsbD 3, b.getMsbD 4,
        b.getMsbD 5, b.getMsbD 6, b.getMsbD 7] := rfl
      have hbyte : mkByte (b.getMsbD 0) (b.getMsbD 1) (b.getMsbD 2) (b.getMsbD 3) (b.getMsbD 4) (b.getMsbD 5)
          (b.getMsbD 6) (b.getMsbD 7) = b := by
        refine BitVec.eq_of_getLsbD_eq fun i hi => ?_
        interval_cases i <;>
          simp only [mkByte, BitVec.getLsbD_append, BitVec.getLsbD_ofBool, BitVec.getMsbD] <;> rfl
      rw [bitsOf_cons, hbits]
      simp only [List.cons_append, List.nil_append, packBytes, hbyte, ih]

end Bits

/-! ### Headers -/

section Headers

open PacketProcessor

variable {ptr : Bytes}

/-- The MAC address that six octets are. -/
def macOf (bytes : Bytes) : MacAddr := (Codec.bits 48).read (bitsOf bytes)

theorem emit_macOf {bytes : Bytes} (h : bytes.length = 6) :
    (Codec.bits 48).emit (macOf bytes) = bitsOf bytes := by
  refine (Codec.bits 48).emit_read _ ?_
  rw [length_bitsOf, h]
  rfl

theorem emit_ntohs {bytes : Bytes} (h : bytes.length = 2) :
    (Codec.bits 16).emit (ntohs bytes) = bitsOf bytes := by
  obtain ⟨high, low, rfl⟩ := List.length_eq_two.1 h
  rw [bitsOf_cons, bitsOf_cons, bitsOf_nil, List.append_nil, ntohs]
  change (List.range 16).map _ = (List.range 8).map _ ++ (List.range 8).map _
  rw [show List.range 16 = List.range 8 ++ (List.range 8).map (8 + ·) by decide, List.map_append, List.map_map]
  congr 1
  · refine List.map_congr_left fun i hi => ?_
    have hlt := List.mem_range.1 hi
    rw [BitVec.getMsbD_append, if_neg (by omega)]
  · refine List.map_congr_left fun i hi => ?_
    rw [Function.comp_apply, BitVec.getMsbD_append, if_pos (by omega), Nat.add_sub_cancel_left]

theorem bitsOf_htons (w : BitVec 16) : bitsOf (htons w) = (Codec.bits 16).emit w := by
  rw [← emit_ntohs (length_htons w), ntohs_htons]

theorem length_field {offset size : Nat} (h : offset + size ≤ ptr.length) :
    (field ptr offset size).length = size := by
  rw [field, List.length_take, List.length_drop]
  omega

theorem field_drop (n offset size : Nat) : field (ptr.drop n) offset size = field ptr (n + offset) size := by
  rw [field, field, List.drop_drop]

theorem field_take {n offset size : Nat} (h : offset + size ≤ n) :
    field (ptr.take n) offset size = field ptr offset size := by
  rw [field, field, List.drop_take, List.take_take, Nat.min_eq_left (by omega)]

/-- The Ethernet header as the pipes see it. -/
def ethernetOf (ptr : Bytes) : EthernetH :=
  ⟨macOf (EthernetHdr.read ptr).dst, macOf (EthernetHdr.read ptr).src, (EthernetHdr.read ptr).type⟩

theorem bitsOf_ethernet (h : 14 ≤ ptr.length) :
    bitsOf ptr = EthernetH.codec.emit (ethernetOf ptr) ++ bitsOf (ptr.drop 14) := by
  have hsplit : ptr = field ptr 0 6 ++ (field ptr 6 6 ++ (field ptr 12 2 ++ ptr.drop 14)) := by
    simp only [field, List.drop_zero]
    rw [show ptr.drop 14 = (ptr.drop 12).drop 2 by rw [List.drop_drop], List.take_append_drop,
      show ptr.drop 12 = (ptr.drop 6).drop 6 by rw [List.drop_drop], List.take_append_drop,
      List.take_append_drop]
  have hemit : EthernetH.codec.emit (ethernetOf ptr) = (Codec.bits 48).emit (macOf (field ptr 0 6)) ++
      ((Codec.bits 48).emit (macOf (field ptr 6 6)) ++ (Codec.bits 16).emit (ntohs (field ptr 12 2))) := rfl
  rw [hemit, emit_macOf (length_field (by omega)), emit_macOf (length_field (by omega)),
    emit_ntohs (length_field (by omega)), List.append_assoc, List.append_assoc, ← bitsOf_append,
    ← bitsOf_append, ← bitsOf_append, ← hsplit]

theorem field_bitsOf (ptr : Bytes) (offset size : Nat) :
    ((bitsOf ptr).drop (8 * offset)).take (8 * size) = bitsOf (field ptr offset size) := by
  rw [drop_bitsOf, take_bitsOf, field]

theorem protocol_read (bytes : Bytes) : (Ipv4H.codec.read (bitsOf bytes)).protocol =
    (Codec.bits 8).read (bitsOf (field bytes 9 1)) := by
  refine Eq.trans ?_ (congrArg (Codec.bits 8).read (field_bitsOf bytes 9 1))
  simp only [Ipv4H.codec, Codec.map, Codec.prod, List.drop_drop]
  rfl

theorem dstPort_read (bytes : Bytes) : (UdpH.codec.read (bitsOf bytes)).dstPort =
    (Codec.bits 16).read (bitsOf (field bytes 2 2)) := by
  refine Eq.trans ?_ (congrArg (Codec.bits 16).read (field_bitsOf bytes 2 2))
  simp only [UdpH.codec, Codec.map, Codec.prod]
  rfl

theorem extract_bitsOf {A : Type*} {c : Codec A} {n : Nat} (hc : c.width = 8 * n) (hn : n ≤ ptr.length) :
    c.extract (bitsOf ptr) = some (c.read (bitsOf (ptr.take n)), bitsOf (ptr.drop n)) := by
  rw [Codec.extract, if_pos (by rw [length_bitsOf]; omega), hc, take_bitsOf, drop_bitsOf]

/-- A packet that is no UDP packet to the port of RoCE. -/
def NoRoce (ptr : Bytes) : Prop :=
  14 ≤ ptr.length ∧ ((EthernetHdr.read ptr).type ≠ 0x0800 ∨ 34 ≤ ptr.length ∧
    (field ptr 23 1 ≠ [0x11] ∨ 42 ≤ ptr.length ∧ ntohs (field ptr 36 2) ≠ 4791))

instance (ptr : Bytes) : Decidable (NoRoce ptr) := inferInstanceAs (Decidable (_ ∧ _))

open Wire.IngressParser in
theorem parseEthernet_of_noRoce (h : NoRoce ptr) (hdr : Frame) : ∃ x, parseEthernet hdr (bitsOf ptr) = some x ∧
    x.hdr.ethernet = ethernetOf ptr ∧
    (x.extracted = .ethernet ∨ x.extracted = .ipv4 ∨ x.extracted = .udp) := by
  obtain ⟨hlength, hplain⟩ := h
  rw [bitsOf_ethernet hlength, parseEthernet, Codec.extract_emit_append, Option.bind_some]
  dsimp only
  by_cases htype : (ethernetOf ptr).etherType = EtherType.ipv4
  swap
  · rw [if_neg htype]
    exact ⟨_, rfl, rfl, Or.inl rfl⟩
  obtain ⟨hipv4, hplain⟩ := hplain.resolve_left fun hne => hne htype
  rw [if_pos htype, parseIpv4, extract_bitsOf (n := 20) rfl (by rw [List.length_drop]; omega), Option.bind_some]
  dsimp only
  have hprotocol : (Ipv4H.codec.read (bitsOf ((ptr.drop 14).take 20))).protocol = Ipv4Protocol.udp ↔
      field ptr 23 1 = [0x11] := by
    rw [protocol_read, field_take (by decide), field_drop]
    obtain ⟨b, hb⟩ := List.length_eq_one_iff.1 (show (field ptr 23 1).length = 1 from length_field (by omega))
    rw [hb, bitsOf_cons, bitsOf_nil, List.append_nil, Codec.read_emit, List.cons.injEq, and_iff_left rfl]
    rfl
  by_cases hudp : field ptr 23 1 = [0x11]
  swap
  · rw [if_neg (mt hprotocol.1 hudp)]
    exact ⟨_, rfl, rfl, Or.inr (Or.inl rfl)⟩
  obtain ⟨hlength, hport⟩ := hplain.resolve_left fun hne => hne hudp
  rw [if_pos (hprotocol.2 hudp), parseUdp, List.drop_drop,
    extract_bitsOf (n := 8) rfl (by rw [List.length_drop]; omega), Option.bind_some]
  dsimp only
  have hdstPort : (UdpH.codec.read (bitsOf ((ptr.drop (14 + 20)).take 8))).dstPort = ntohs (field ptr 36 2) := by
    rw [dstPort_read, field_take (by decide), field_drop, ← emit_ntohs (length_field (by omega)), Codec.read_emit]
  rw [if_neg (by rwa [hdstPort])]
  exact ⟨_, rfl, rfl, Or.inr (Or.inr rfl)⟩

end Headers

end Mpitofino
