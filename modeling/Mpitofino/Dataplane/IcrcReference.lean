import Mpitofino.Dataplane.Egress
import Mpitofino.Dataplane.Ingress
import Mathlib.Tactic.IntervalCases

/-!
# The ICRC of the switch is the reference ICRC

`Icrc.updateBit` .. `Icrc.value` are the class `ICRC` of `checksum.py`, on octets; `referenceIcrc` is
what its `main` feeds into it: the masked LRH, the masked headers and the payload. The switch instead
adds four hashes over parts of the packet, each padded with zeros, and corrects the sum by a constant.
Both are read through `Crc.feed`, where the parts add up by linearity and the constant is what the
initial values and the LRH contribute.
-/

namespace Mpitofino

/-! ### The reference implementation -/

namespace Icrc

def updateBit (acc : BitVec 32) (b : Bool) : BitVec 32 :=
  let b' := acc.msb ^^ b
  (((acc <<< 1) &&& 0xfffffffe) ||| (if b' then 1 else 0)) ^^^
    (if b' then icrcPoly &&& 0xfffffffe else 0)

/-- The bits of an octet in the order `update_byte` takes them, least significant first. -/
def byteBits (b : BitVec 8) : List Bool := (List.range 8).map b.getLsbD

def updateByte (acc : BitVec 32) (b : BitVec 8) : BitVec 32 := (byteBits b).foldl updateBit acc

def updateBytes (acc : BitVec 32) (bs : List (BitVec 8)) : BitVec 32 := bs.foldl updateByte acc

/-- The property `value`: the complement, with the bits of every octet reversed. -/
def value (acc : BitVec 32) : BitVec 32 :=
  let output := acc ^^^ 0xffffffff
  ((output &&& 0x00000001) <<< 7) ||| ((output &&& 0x00000002) <<< 5) |||
  ((output &&& 0x00000004) <<< 3) ||| ((output &&& 0x00000008) <<< 1) |||
  ((output &&& 0x00000010) >>> 1) ||| ((output &&& 0x00000020) >>> 3) |||
  ((output &&& 0x00000040) >>> 5) ||| ((output &&& 0x00000080) >>> 7) |||
  ((output &&& 0x00000100) <<< 7) ||| ((output &&& 0x00000200) <<< 5) |||
  ((output &&& 0x00000400) <<< 3) ||| ((output &&& 0x00000800) <<< 1) |||
  ((output &&& 0x00001000) >>> 1) ||| ((output &&& 0x00002000) >>> 3) |||
  ((output &&& 0x00004000) >>> 5) ||| ((output &&& 0x00008000) >>> 7) |||
  ((output &&& 0x00010000) <<< 7) ||| ((output &&& 0x00020000) <<< 5) |||
  ((output &&& 0x00040000) <<< 3) ||| ((output &&& 0x00080000) <<< 1) |||
  ((output &&& 0x00100000) >>> 1) ||| ((output &&& 0x00200000) >>> 3) |||
  ((output &&& 0x00400000) >>> 5) ||| ((output &&& 0x00800000) >>> 7) |||
  ((output &&& 0x01000000) <<< 7) ||| ((output &&& 0x02000000) <<< 5) |||
  ((output &&& 0x04000000) <<< 3) ||| ((output &&& 0x08000000) <<< 1) |||
  ((output &&& 0x10000000) >>> 1) ||| ((output &&& 0x20000000) >>> 3) |||
  ((output &&& 0x40000000) >>> 5) ||| ((output &&& 0x80000000) >>> 7)

end Icrc

/-! ### Octets of a packet -/

def mkByte (b7 b6 b5 b4 b3 b2 b1 b0 : Bool) : BitVec 8 :=
  BitVec.ofBool b7 ++ BitVec.ofBool b6 ++ BitVec.ofBool b5 ++ BitVec.ofBool b4 ++
    BitVec.ofBool b3 ++ BitVec.ofBool b2 ++ BitVec.ofBool b1 ++ BitVec.ofBool b0

def packBytes : List Bool → List (BitVec 8)
  | b7 :: b6 :: b5 :: b4 :: b3 :: b2 :: b1 :: b0 :: rest =>
      mkByte b7 b6 b5 b4 b3 b2 b1 b0 :: packBytes rest
  | _ => []

def wireBytes (fs : List Field) : List (BitVec 8) := packBytes (fieldBits fs)

namespace Ipv4H

def fields (h : Ipv4H) : List Field :=
  [⟨h.version⟩, ⟨h.ihl⟩, ⟨h.tos⟩, ⟨h.totalLength⟩, ⟨h.identification⟩, ⟨h.flags⟩,
    ⟨h.fragmentOffset⟩, ⟨h.ttl⟩, ⟨h.protocol⟩, ⟨h.headerChecksum⟩, ⟨h.srcAddr⟩, ⟨h.dstAddr⟩]

end Ipv4H

namespace UdpH

def fields (h : UdpH) : List Field := [⟨h.srcPort⟩, ⟨h.dstPort⟩, ⟨h.length⟩, ⟨h.checksum⟩]

end UdpH

namespace RoceH

def fields (h : RoceH) : List Field :=
  [⟨h.opcode⟩, ⟨h.se⟩, ⟨h.migreq⟩, ⟨h.padCnt⟩, ⟨h.version⟩, ⟨h.partitionKey⟩, ⟨h.reserved⟩,
    ⟨h.dstQp⟩, ⟨h.ackReq⟩, ⟨h.reserved2⟩, ⟨h.psn⟩]

end RoceH

/-- `ip2`, `udp2` and `bth2` of `main`. -/
def maskedHeaderBytes (ipv4 : Ipv4H) (udp : UdpH) (roce : RoceH) : List (BitVec 8) :=
  ((((wireBytes ipv4.fields).set 1 0xff).set 8 0xff).set 10 0xff).set 11 0xff ++
    (((wireBytes udp.fields).set 6 0xff).set 7 0xff ++ (wireBytes roce.fields).set 4 0xff)

/-- The value `main` computes for a packet with these headers and this data. -/
def referenceIcrc (ipv4 : Ipv4H) (udp : UdpH) (roce : RoceH) (data : List (BitVec 8)) : BitVec 32 :=
  Icrc.value (Icrc.updateBytes 0xffffffff
    (List.replicate 8 0xff ++ maskedHeaderBytes ipv4 udp roce ++ data))

/-! ### The reference register, reflected -/

namespace Icrc

private theorem shiftLeft_and (x : BitVec 32) : (x <<< 1) &&& 0xfffffffe#32 = x <<< 1 := by
  have hmask : ∀ i : Fin 32, (0xfffffffe#32).getLsbD i = decide (1 ≤ i.val) := by decide
  apply BitVec.eq_of_getLsbD_eq
  intro i hi
  rw [BitVec.getLsbD_and, hmask ⟨i, hi⟩, BitVec.getLsbD_shiftLeft]
  by_cases h : i < 1
  · simp [h]
  · simp [show 1 ≤ i by omega]

private theorem shiftLeft_or_one (x : BitVec 32) : (x <<< 1) ||| 1#32 = (x <<< 1) ^^^ 1#32 := by
  have hone : ∀ i : Fin 32, (1#32).getLsbD i = decide (i.val = 0) := by decide
  apply BitVec.eq_of_getLsbD_eq
  intro i hi
  rw [BitVec.getLsbD_or, BitVec.getLsbD_xor, hone ⟨i, hi⟩, BitVec.getLsbD_shiftLeft]
  by_cases h : i = 0
  · simp [h]
  · simp [h]

theorem updateBit_eq (acc : BitVec 32) (b : Bool) :
    updateBit acc b = Crc.shiftBitMsb icrcPoly acc b := by
  have hpoly : 1#32 ^^^ (icrcPoly &&& 0xfffffffe#32) = icrcPoly := by decide
  change ((acc <<< 1 &&& 0xfffffffe#32) ||| (if acc.msb ^^ b then 1#32 else 0#32)) ^^^
    (if acc.msb ^^ b then icrcPoly &&& 0xfffffffe#32 else 0#32) = _
  rw [shiftLeft_and, Crc.shiftBitMsb]
  split
  · rw [shiftLeft_or_one, BitVec.xor_assoc, hpoly]
  · rw [BitVec.or_zero, BitVec.xor_zero]

theorem updateBytes_eq (acc : BitVec 32) (bs : List (BitVec 8)) :
    updateBytes acc bs = Crc.feedMsb icrcPoly acc (bs.flatMap byteBits) := by
  have hbit : updateBit = Crc.shiftBitMsb icrcPoly := by
    funext acc b
    exact updateBit_eq acc b
  induction bs generalizing acc with
  | nil => rfl
  | cons b bs ih =>
      rw [List.flatMap_cons]
      change updateBytes (updateByte acc b) bs = List.foldl (Crc.shiftBitMsb icrcPoly) acc _
      rw [List.foldl_append, ih, updateByte, hbit]
      rfl

end Icrc

theorem getLsbD_swapEndianness (x : BitVec 32) (i : Nat) :
    (swapEndianness x).getLsbD i =
      if i < 8 then x.getLsbD (24 + i)
      else if i < 16 then x.getLsbD (8 + i)
      else if i < 24 then x.getLsbD (i - 8)
      else if i < 32 then x.getLsbD (i - 24) else false := by
  change @BitVec.getLsbD (8 + 8 + 8 + 8) (x.extractLsb' 0 8 ++ x.extractLsb' 8 8 ++
    x.extractLsb' 16 8 ++ x.extractLsb' 24 8) i = _
  rw [BitVec.getLsbD_append, BitVec.getLsbD_append, BitVec.getLsbD_append]
  simp only [BitVec.getLsbD_extractLsb']
  split_ifs <;> grind

theorem swapEndianness_xor (x y : BitVec 32) :
    swapEndianness (x ^^^ y) = swapEndianness x ^^^ swapEndianness y := by
  apply BitVec.eq_of_getLsbD_eq
  intro i hi
  simp only [getLsbD_swapEndianness, BitVec.getLsbD_xor]
  split_ifs <;> rfl

theorem Icrc.value_eq (acc : BitVec 32) :
    Icrc.value acc = swapEndianness (acc.reverse ^^^ 0xffffffff) := by
  have hones : acc.reverse ^^^ 0xffffffff = (acc ^^^ 0xffffffff).reverse := by
    rw [Crc.reverse_xor, show (0xffffffff : BitVec 32).reverse = 0xffffffff by decide +kernel]
  rw [hones]
  unfold Icrc.value
  generalize acc ^^^ 0xffffffff = x
  apply BitVec.eq_of_getLsbD_eq
  intro i hi
  simp only [getLsbD_swapEndianness, BitVec.getLsbD_reverse, BitVec.getMsbD_eq_getLsbD]
  interval_cases i <;> simp

/-! ### Messages as bit strings -/

theorem byteBits_mkByte (b7 b6 b5 b4 b3 b2 b1 b0 : Bool) :
    Icrc.byteBits (mkByte b7 b6 b5 b4 b3 b2 b1 b0) = [b0, b1, b2, b3, b4, b5, b6, b7] := by
  cases b7 <;> cases b6 <;> cases b5 <;> cases b4 <;> cases b3 <;> cases b2 <;> cases b1 <;>
    cases b0 <;> rfl

/-- The reference takes the bits of the wire octets in the order the reflected hash takes them. -/
theorem flatMap_byteBits_packBytes (m : List Bool) :
    (packBytes m).flatMap Icrc.byteBits = reflectBytes m := by
  induction m using packBytes.induct with
  | case1 b7 b6 b5 b4 b3 b2 b1 b0 rest ih =>
      rw [packBytes, List.flatMap_cons, ih, byteBits_mkByte, reflectBytes]
      rfl
  | case2 m hshort =>
      rw [packBytes, reflectBytes]
      · rfl
      · exact hshort
      · exact hshort

private theorem eq_nil_of_short {m : List Bool} (h : m.length % 8 = 0)
    (hshort : ∀ b7 b6 b5 b4 b3 b2 b1 b0 rest,
      m = b7 :: b6 :: b5 :: b4 :: b3 :: b2 :: b1 :: b0 :: rest → False) : m = [] := by
  match m, h, hshort with
  | [], _, _ => rfl
  | [_], h, _ => simp at h
  | [_, _], h, _ => simp at h
  | [_, _, _], h, _ => simp at h
  | [_, _, _, _], h, _ => simp at h
  | [_, _, _, _, _], h, _ => simp at h
  | [_, _, _, _, _, _], h, _ => simp at h
  | [_, _, _, _, _, _, _], h, _ => simp at h
  | b7 :: b6 :: b5 :: b4 :: b3 :: b2 :: b1 :: b0 :: rest, _, hshort =>
      exact (hshort b7 b6 b5 b4 b3 b2 b1 b0 rest rfl).elim

theorem reflectBytes_append {m : List Bool} (n : List Bool) (h : m.length % 8 = 0) :
    reflectBytes (m ++ n) = reflectBytes m ++ reflectBytes n := by
  induction m using reflectBytes.induct with
  | case1 b7 b6 b5 b4 b3 b2 b1 b0 rest ih =>
      have hrest : rest.length % 8 = 0 := by
        simp only [List.length_cons] at h
        omega
      simp only [List.cons_append, reflectBytes, ih hrest]
  | case2 m hshort =>
      rw [eq_nil_of_short h hshort]
      rfl

theorem length_reflectBytes {m : List Bool} (h : m.length % 8 = 0) :
    (reflectBytes m).length = m.length := by
  induction m using reflectBytes.induct with
  | case1 b7 b6 b5 b4 b3 b2 b1 b0 rest ih =>
      have hrest : rest.length % 8 = 0 := by
        simp only [List.length_cons] at h
        omega
      simp only [reflectBytes, List.length_cons, ih hrest]
  | case2 m hshort =>
      rw [eq_nil_of_short h hshort]
      rfl

theorem reflectBytes_zeros (k : Nat) : reflectBytes (Crc.zeros (8 * k)) = Crc.zeros (8 * k) := by
  induction k with
  | zero => rfl
  | succ k ih =>
      rw [show 8 * (k + 1) = 8 + 8 * k by omega, Crc.zeros_add, reflectBytes_append _ rfl, ih]
      rfl

theorem fieldBits_append (fs gs : List Field) : fieldBits (fs ++ gs) = fieldBits fs ++ fieldBits gs :=
  List.flatMap_append

/-- The words of a payload are whole octets. -/
theorem length_fieldBits_words (ws : List Value) :
    (fieldBits (ws.map fun w => ⟨w⟩)).length = 32 * ws.length := by
  induction ws with
  | nil => rfl
  | cons w ws ih =>
      change (Field.bits ⟨w⟩ ++ fieldBits (ws.map fun w => ⟨w⟩)).length = _
      rw [List.length_append, ih, Field.bits, List.length_map, List.length_range, List.length_cons]
      change 32 + 32 * ws.length = _
      omega

theorem fieldBits_zeroWords (k : Nat) :
    fieldBits (List.replicate k ⟨(0 : BitVec 32)⟩) = Crc.zeros (32 * k) := by
  induction k with
  | zero => rfl
  | succ k ih =>
      rw [List.replicate_succ, fieldBits, List.flatMap_cons, show 32 * (k + 1) = 32 + 32 * k by omega,
        Crc.zeros_add, ← ih]
      rfl

set_option maxRecDepth 20000 in
/-- Masking octets of the wire headers is hashing masked fields. -/
theorem maskedHeaderBytes_eq (ipv4 : Ipv4H) (udp : UdpH) (roce : RoceH) :
    maskedHeaderBytes ipv4 udp roce = wireBytes (maskedHeaderFields ipv4 udp roce) := by
  rfl

set_option maxRecDepth 20000 in
theorem length_maskedHeaderFields (ipv4 : Ipv4H) (udp : UdpH) (roce : RoceH) :
    (fieldBits (maskedHeaderFields ipv4 udp roce)).length = 320 := by
  rfl

/-! ### The constants -/

/-- The register of the reference behind the masked LRH. -/
def lrhRegister : BitVec 32 := Crc.feed icrcPoly.reverse 0xffffffff (List.replicate 64 true)

set_option maxRecDepth 20000 in
theorem lrh_constant_ack :
    Crc.feed icrcPoly.reverse (lrhRegister ^^^ 0xffffffff) (Crc.zeros 352) = 0x71acd589 := by
  decide +kernel

set_option maxRecDepth 20000 in
theorem lrh_constant :
    Crc.feed icrcPoly.reverse (lrhRegister ^^^ 0xffffffff) (Crc.zeros 2368) = 0xef8df977 := by
  have hfirst : Crc.feed icrcPoly.reverse (lrhRegister ^^^ 0xffffffff) (Crc.zeros 320)
      = 0x6ac85bad := by decide +kernel
  rw [Crc.feed_zeros_add _ _ 320 2048, hfirst]
  decide +kernel

set_option maxRecDepth 20000 in
theorem zeros_constant_896 :
    Crc.feed icrcPoly.reverse 0xffffffff (Crc.zeros 896) = 0xe4415242 := by
  decide +kernel

set_option maxRecDepth 20000 in
theorem zeros_constant_1536 :
    Crc.feed icrcPoly.reverse 0xffffffff (Crc.zeros 1536) = 0x7400f70d := by
  rw [Crc.feed_zeros_add _ _ 896 640, zeros_constant_896]
  decide +kernel

set_option maxRecDepth 20000 in
theorem zeros_constant_2048 :
    Crc.feed icrcPoly.reverse 0xffffffff (Crc.zeros 2048) = 0xf2697aa7 := by
  rw [Crc.feed_zeros_add _ _ 1536 512, zeros_constant_1536]
  decide +kernel

/-! ### Both computations over the same register -/

theorem reference_eq (ipv4 : Ipv4H) (udp : UdpH) (roce : RoceH) (fs : List Field) :
    referenceIcrc ipv4 udp roce (wireBytes fs) =
      swapEndianness (Crc.feed icrcPoly.reverse lrhRegister
        (reflectBytes (fieldBits (maskedHeaderFields ipv4 udp roce)) ++
          reflectBytes (fieldBits fs)) ^^^ 0xffffffff) := by
  have hones : (0xffffffff : BitVec 32).reverse = 0xffffffff := by decide +kernel
  rw [referenceIcrc, Icrc.value_eq, Icrc.updateBytes_eq, Crc.reverse_feedMsb, hones,
    List.flatMap_append, List.flatMap_append, maskedHeaderBytes_eq, wireBytes, wireBytes,
    flatMap_byteBits_packBytes, flatMap_byteBits_packBytes, List.append_assoc, Crc.feed_append]
  rfl

/-- A hash whose message starts with the masked headers, as a register started behind the LRH. -/
theorem icrcHash_masked (ipv4 : Ipv4H) (udp : UdpH) (roce : RoceH) (fs : List Field) :
    icrcHash (maskedHeaderFields ipv4 udp roce ++ fs) =
      Crc.feed icrcPoly.reverse 0xffffffff
        (reflectBytes (fieldBits (maskedHeaderFields ipv4 udp roce)) ++
          reflectBytes (fieldBits fs)) ^^^ 0xffffffff := by
  have hlen : (fieldBits (maskedHeaderFields ipv4 udp roce)).length % 8 = 0 := by
    rw [length_maskedHeaderFields]
  rw [icrcHash, fieldBits_append, reflectBytes_append _ hlen]

set_option maxRecDepth 20000 in
/-- **Acknowledgements.** The ICRC of a reflected acknowledgement is the reference value. -/
theorem egressAckIcrc_eq (ipv4 : Ipv4H) (udp : UdpH) (roce : RoceH) (ack : RoceAckH) :
    egressAckIcrc ipv4 udp roce ack =
      referenceIcrc ipv4 udp roce (wireBytes [⟨ack.syndrome⟩, ⟨ack.msn⟩]) := by
  have hlen : (reflectBytes (fieldBits (maskedHeaderFields ipv4 udp roce)) ++
      reflectBytes (fieldBits [⟨ack.syndrome⟩, ⟨ack.msn⟩])).length = 352 := rfl
  rw [egressAckIcrc, reference_eq, icrcHash_masked, Crc.feed_register _ lrhRegister 0xffffffff,
    hlen, lrh_constant_ack, BitVec.xor_assoc, BitVec.xor_assoc,
    BitVec.xor_comm 0xffffffff]

/-! ### The payload in three parts -/

/-- The reflected bits of `len` payload words from `start` on. -/
private def wordBits (agg : AggregateH) (start len : Nat) : List Bool :=
  reflectBytes (fieldBits ((((List.finRange 64).drop start).take len).map fun i => ⟨agg i⟩))

private theorem length_words (agg : AggregateH) (start len : Nat) (h : start + len ≤ 64) :
    (fieldBits ((((List.finRange 64).drop start).take len).map fun i => ⟨agg i⟩)).length
      = 32 * len := by
  have hmap : ((((List.finRange 64).drop start).take len).map fun i => (⟨agg i⟩ : Field)) =
      ((((List.finRange 64).drop start).take len).map agg).map fun w => ⟨w⟩ := by
    rw [List.map_map]
    rfl
  rw [hmap, length_fieldBits_words, List.length_map, List.length_take, List.length_drop,
    List.length_finRange, Nat.min_eq_left (by omega)]

private theorem length_wordBits (agg : AggregateH) (start len : Nat) (h : start + len ≤ 64) :
    (wordBits agg start len).length = 32 * len := by
  rw [wordBits, length_reflectBytes (by rw [length_words agg start len h]; omega),
    length_words agg start len h]

theorem icrcHash_payload (agg : AggregateH) (start len pad : Nat) (h : start + len ≤ 64) :
    icrcHash (payloadFields agg start len pad) =
      Crc.feed icrcPoly.reverse 0 (wordBits agg start len ++ Crc.zeros (32 * pad)) ^^^
        (Crc.feed icrcPoly.reverse 0xffffffff (Crc.zeros (32 * (len + pad))) ^^^ 0xffffffff) := by
  have hbits : reflectBytes (fieldBits (payloadFields agg start len pad)) =
      wordBits agg start len ++ Crc.zeros (32 * pad) := by
    rw [payloadFields, fieldBits_append,
      reflectBytes_append _ (by rw [length_words agg start len h]; omega), fieldBits_zeroWords,
      show 32 * pad = 8 * (4 * pad) by omega, reflectBytes_zeros]
    rfl
  have hlen : (wordBits agg start len ++ Crc.zeros (32 * pad)).length = 32 * (len + pad) := by
    rw [List.length_append, length_wordBits agg start len h, Crc.length_zeros]
    omega
  rw [icrcHash, hbits, Crc.feed_split, hlen]
  ac_rfl

def payloadBytes (agg : AggregateH) : List (BitVec 8) :=
  wireBytes ((List.finRange 64).map fun i => ⟨agg i⟩)

theorem reflectBytes_payload (agg : AggregateH) :
    reflectBytes (fieldBits ((List.finRange 64).map fun i => (⟨agg i⟩ : Field))) =
      wordBits agg 0 16 ++ (wordBits agg 16 20 ++ wordBits agg 36 28) := by
  have hparts : List.finRange 64 = ((List.finRange 64).drop 0).take 16 ++
      (((List.finRange 64).drop 16).take 20 ++ ((List.finRange 64).drop 36).take 28) := by decide
  conv_lhs => rw [hparts]
  rw [List.map_append, List.map_append, fieldBits_append, fieldBits_append,
    reflectBytes_append _ (by rw [length_words agg 0 16 (by omega)]),
    reflectBytes_append _ (by rw [length_words agg 16 20 (by omega)])]
  rfl

private theorem xor_pairs (x y z a b c : BitVec 32) :
    x ^^^ a ^^^ (y ^^^ b) ^^^ (z ^^^ c) = x ^^^ (y ^^^ z) ^^^ (a ^^^ b ^^^ c) := by
  ac_rfl

private theorem xor_cancel (p c z h o l : BitVec 32) :
    p ^^^ c ^^^ (z ^^^ h ^^^ o) ^^^ (c ^^^ l) = z ^^^ (h ^^^ p) ^^^ l ^^^ o := by
  calc p ^^^ c ^^^ (z ^^^ h ^^^ o) ^^^ (c ^^^ l)
      = z ^^^ (h ^^^ p) ^^^ l ^^^ o ^^^ (c ^^^ c) := by ac_rfl
    _ = z ^^^ (h ^^^ p) ^^^ l ^^^ o := by rw [BitVec.xor_self, BitVec.xor_zero]

/-- The sum of the three payload hashes: the linear part of the whole payload and a constant. -/
theorem ingressIcrc_eq (agg : AggregateH) :
    ingressIcrc agg =
      Crc.feed icrcPoly.reverse 0 (wordBits agg 0 16 ++ (wordBits agg 16 20 ++ wordBits agg 36 28))
        ^^^ (0xf2697aa7 ^^^ 0x7400f70d ^^^ 0xe4415242 ^^^ 0xffffffff) := by
  have h2 := length_wordBits agg 16 20 (by omega)
  have h3 := length_wordBits agg 36 28 (by omega)
  have hlong : (wordBits agg 16 20 ++ wordBits agg 36 28).length = 32 * 48 := by
    rw [List.length_append, h2, h3]
  have hconst : ((0xf2697aa7 : BitVec 32) ^^^ 0xffffffff) ^^^ (0x7400f70d ^^^ 0xffffffff) ^^^
      (0xe4415242 ^^^ 0xffffffff) = 0xf2697aa7 ^^^ 0x7400f70d ^^^ 0xe4415242 ^^^ 0xffffffff := by
    decide
  have hnil : Crc.zeros (32 * 0) = [] := rfl
  rw [ingressIcrc, icrcHash_payload agg 0 16 48 (by omega), icrcHash_payload agg 16 20 28 (by omega),
    icrcHash_payload agg 36 28 0 (by omega), zeros_constant_2048, zeros_constant_1536,
    zeros_constant_896,
    Crc.feed_zero_append _ (wordBits agg 0 16) (wordBits agg 16 20 ++ wordBits agg 36 28), hlong,
    Crc.feed_zero_append _ (wordBits agg 16 20) (wordBits agg 36 28), h3, ← hconst, hnil,
    List.append_nil, xor_pairs]

/-- **Result packets.** The ICRC put together from the ingress and the egress hashes is the reference
value. -/
theorem egressIcrc_eq (agg : AggregateH) (ipv4 : Ipv4H) (udp : UdpH) (roce : RoceH) :
    egressIcrc (ingressIcrc agg) ipv4 udp roce =
      referenceIcrc ipv4 udp roce (payloadBytes agg) := by
  have hconst : (0x60d95a72 : BitVec 32) = swapEndianness
      ((0xf2697aa7 ^^^ 0x7400f70d ^^^ 0xe4415242 ^^^ 0xffffffff) ^^^ 0xef8df977) := by decide
  have hzeros : reflectBytes (fieldBits (List.replicate 64 ⟨(0 : BitVec 32)⟩)) = Crc.zeros 2048 := by
    rw [fieldBits_zeroWords]
    exact reflectBytes_zeros 256
  have hmasked : (reflectBytes (fieldBits (maskedHeaderFields ipv4 udp roce))).length = 320 := by
    rw [length_reflectBytes (by rw [length_maskedHeaderFields]), length_maskedHeaderFields]
  have hpayload : (wordBits agg 0 16 ++ (wordBits agg 16 20 ++ wordBits agg 36 28)).length = 2048 := by
    rw [List.length_append, List.length_append, length_wordBits agg 0 16 (by omega),
      length_wordBits agg 16 20 (by omega), length_wordBits agg 36 28 (by omega)]
  generalize hM : reflectBytes (fieldBits (maskedHeaderFields ipv4 udp roce)) = M at hmasked
  have href : Crc.feed icrcPoly.reverse lrhRegister
      (M ++ (wordBits agg 0 16 ++ (wordBits agg 16 20 ++ wordBits agg 36 28))) =
      Crc.feed icrcPoly.reverse 0xffffffff
        (M ++ (wordBits agg 0 16 ++ (wordBits agg 16 20 ++ wordBits agg 36 28))) ^^^ 0xef8df977 := by
    rw [Crc.feed_register _ lrhRegister 0xffffffff, List.length_append, hmasked, hpayload,
      lrh_constant]
  rw [egressIcrc, payloadBytes, reference_eq, icrcHash_masked, hzeros, reflectBytes_payload, hM, href,
    ingressIcrc_eq, hconst, ← swapEndianness_xor, Crc.feed_split _ 0xffffffff (M ++ _),
    Crc.feed_split _ 0xffffffff (M ++ (wordBits agg 0 16 ++ _)), List.length_append,
    List.length_append, hpayload, Crc.length_zeros,
    Crc.feed_zero_append _ M (wordBits agg 0 16 ++ _), hpayload]
  exact congrArg swapEndianness (xor_cancel _ _ _ _ _ _)

end Mpitofino
