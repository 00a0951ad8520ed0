import Mpitofino.Control.InternetChecksum
import Mpitofino.Control.SimpleTypes

/-!
# The packet processor

Packets to the collectives module that are no collective ones come to the CPU. ARP requests and ICMP
echo requests are answered. A packet is a list of bytes, its headers are fields at fixed offsets, and a
reply is what is passed to `send_packet`.
-/

namespace Mpitofino

namespace PacketProcessor

abbrev Bytes := List (BitVec 8)

/-- A field of a header. -/
def field (ptr : Bytes) (offset size : Nat) : Bytes := (ptr.drop offset).take size

def htons (w : BitVec 16) : Bytes := [w.extractLsb' 8 8, w.extractLsb' 0 8]

def ntohs : Bytes → BitVec 16
  | [high, low] => high ++ low
  | _ => 0

/-- The addresses of the collectives module. -/
structure StRepo where
  mac : Vector (BitVec 8) 6
  ip : SimpleTypes.IPv4Addr

def StRepo.macBytes (r : StRepo) : Bytes := r.mac.toList

def StRepo.ipBytes (r : StRepo) : Bytes := r.ip.addr.toList

structure EthernetHdr where
  dst : Bytes
  src : Bytes
  type : BitVec 16

def EthernetHdr.read (ptr : Bytes) : EthernetHdr :=
  ⟨field ptr 0 6, field ptr 6 6, ntohs (field ptr 12 2)⟩

def EthernetHdr.bytes (hdr : EthernetHdr) : Bytes := hdr.dst ++ hdr.src ++ htons hdr.type

/-- The control plane offload header that has a packet switched. -/
def useSwitchingTable : Bytes := htons 65535

def parsePacketArp (r : StRepo) (srcEthHdr : EthernetHdr) (ptr : Bytes) : Option Bytes :=
  if ptr.length < 28 then none
  else if ntohs (field ptr 6 2) = 1 ∧ field ptr 24 4 = r.ipBytes then
    some (useSwitchingTable ++ EthernetHdr.bytes ⟨srcEthHdr.src, r.macBytes, 0x0806⟩ ++
      htons 1 ++ htons 0x0800 ++ [6, 4] ++ htons 2 ++ r.macBytes ++ r.ipBytes ++ field ptr 8 6 ++
      field ptr 14 4)
  else none

/-- The IPv4 header of a reply. Its identification and checksum are stored as the host has them. -/
def ipv4Hdr (totalLength : BitVec 16) (srcAddr dstAddr : Bytes) (checksum : BitVec 16) : Bytes :=
  [0x45, 0] ++ htons totalLength ++ bytesOf 0x1234 ++ bytesOf 0 ++ [16, 1] ++ bytesOf checksum ++
    srcAddr ++ dstAddr

/-- The header and data of an echo reply. -/
def icmpReply (id seq data : Bytes) (checksum : BitVec 16) : Bytes :=
  [0, 0] ++ bytesOf checksum ++ id ++ seq ++ data

/-- What the buffer has room for behind the headers. -/
def maxData : Nat := 1024 - (2 + 14 + 20 + 8)

/-- Checksums are computed while their fields are zero. -/
def echoReply (r : StRepo) (srcEthHdr : EthernetHdr) (srcAddr id seq ptr : Bytes) : Bytes :=
  let data := ptr.take (min maxData ptr.length)
  let icmp := icmpReply id seq data (internetChecksum (icmpReply id seq data 0))
  let ipv4 := ipv4Hdr (BitVec.ofNat 16 (20 + icmp.length)) r.ipBytes srcAddr
  useSwitchingTable ++ EthernetHdr.bytes ⟨srcEthHdr.src, r.macBytes, 0x0800⟩ ++
    ipv4 (internetChecksum (ipv4 0)) ++ icmp

def parsePacketIpv4Icmp (r : StRepo) (srcEthHdr : EthernetHdr) (srcAddr ptr : Bytes) : Option Bytes :=
  if ptr.length < 8 then none
  else if field ptr 0 1 = [8] ∧ field ptr 1 1 = [0] then
    some (echoReply r srcEthHdr srcAddr (field ptr 4 2) (field ptr 6 2) (ptr.drop 8))
  else none

def parsePacketIpv4 (r : StRepo) (srcEthHdr : EthernetHdr) (ptr : Bytes) : Option Bytes :=
  if ptr.length < 20 then none
  else if field ptr 9 1 = [1] then parsePacketIpv4Icmp r srcEthHdr (field ptr 12 4) (ptr.drop 20)
  else none

def parsePacket (r : StRepo) (ptr : Bytes) : Option Bytes :=
  if ptr.length < 60 then none
  else if (EthernetHdr.read ptr).type = 0x0806 then
    parsePacketArp r (EthernetHdr.read ptr) (ptr.drop 14)
  else if (EthernetHdr.read ptr).type = 0x0800 then
    parsePacketIpv4 r (EthernetHdr.read ptr) (ptr.drop 14)
  else none

/-! ### Echo requests -/

/-- An echo request in an unfragmented packet whose header has no options. -/
structure EchoRequest where
  dst : Bytes
  src : Bytes
  tos : BitVec 8
  identification : BitVec 16
  flagsFragmentOffset : BitVec 16
  ttl : BitVec 8
  headerChecksum : BitVec 16
  srcAddr : Bytes
  dstAddr : Bytes
  checksum : BitVec 16
  id : BitVec 16
  seq : BitVec 16
  data : Bytes
  dst_length : dst.length = 6
  src_length : src.length = 6
  srcAddr_length : srcAddr.length = 4
  dstAddr_length : dstAddr.length = 4
  unfragmented : flagsFragmentOffset &&& 0x3fff = 0
  fits : 28 + data.length < 2 ^ 16

namespace EchoRequest

def ethernet (req : EchoRequest) : Bytes := EthernetHdr.bytes ⟨req.dst, req.src, 0x0800⟩

def ipv4 (req : EchoRequest) : Bytes :=
  [0x45, req.tos] ++ htons (BitVec.ofNat 16 (28 + req.data.length)) ++ htons req.identification ++
    htons req.flagsFragmentOffset ++ [req.ttl, 1] ++ htons req.headerChecksum ++ req.srcAddr ++ req.dstAddr

def icmp (req : EchoRequest) : Bytes :=
  [8, 0] ++ htons req.checksum ++ htons req.id ++ htons req.seq

def frame (req : EchoRequest) (padding : Bytes) : Bytes :=
  req.ethernet ++ (req.ipv4 ++ (req.icmp ++ (req.data ++ padding)))

end EchoRequest

/-- What is sent is an echo reply to the request that carries some data. -/
structure Mirrors (req : EchoRequest) (data sent : Bytes) : Prop where
  type_eq : field sent 36 2 = [0, 0]
  id_eq : field sent 40 2 = htons req.id
  seq_eq : field sent 42 2 = htons req.seq
  data_eq : sent.drop 44 = data
  totalLength_eq : (ntohs (field sent 18 2)).toNat = 28 + data.length
  headerChecksum_eq : internetChecksum (field sent 16 20) = 0
  checksum_eq : internetChecksum (sent.drop 36) = 0

/-! ### Fields -/

section Fields

variable {before ptr after : Bytes} {offset size : Nat}

theorem field_after (h : before.length ≤ offset) :
    field (before ++ ptr) offset size = field ptr (offset - before.length) size := by
  rw [field, field, List.drop_append, List.drop_eq_nil_of_le h, List.nil_append]

theorem field_start (h : ptr.length = size) : field (ptr ++ after) 0 size = ptr := by
  rw [field, List.drop_zero, List.take_left' h]

@[simp] theorem length_htons (w : BitVec 16) : (htons w).length = 2 := rfl

@[simp] theorem length_bytesOf (w : BitVec 16) : (bytesOf w).length = 2 := rfl

theorem ntohs_htons (w : BitVec 16) : ntohs (htons w) = w := by
  change w.extractLsb' 8 8 ++ w.extractLsb' 0 8 = w
  rw [BitVec.extractLsb'_append_extractLsb'_eq_extractLsb' (by rfl)]
  exact BitVec.extractLsb'_eq_self

end Fields

/-! ### What is read -/

namespace EchoRequest

variable (req : EchoRequest) (padding : Bytes)

theorem length_ethernet : req.ethernet.length = 14 := by
  simp [ethernet, EthernetHdr.bytes, req.dst_length, req.src_length]

theorem length_ipv4 : req.ipv4.length = 20 := by
  simp [ipv4, req.srcAddr_length, req.dstAddr_length]

theorem length_icmp : req.icmp.length = 8 := rfl

theorem read_ethernet : EthernetHdr.read (req.frame padding) = ⟨req.dst, req.src, 0x0800⟩ := by
  have hframe : req.frame padding = req.dst ++ (req.src ++ (htons 0x0800 ++
      (req.ipv4 ++ (req.icmp ++ (req.data ++ padding))))) := by
    simp only [frame, ethernet, EthernetHdr.bytes, List.append_assoc]
  have hdst : field (req.frame padding) 0 6 = req.dst := by
    rw [hframe, field_start req.dst_length]
  have hsrc : field (req.frame padding) 6 6 = req.src := by
    rw [hframe, field_after req.dst_length.le, req.dst_length, Nat.sub_self, field_start req.src_length]
  have htype : field (req.frame padding) 12 2 = htons 0x0800 := by
    rw [hframe, field_after (by rw [req.dst_length]; decide), req.dst_length,
      field_after (by rw [req.src_length]), req.src_length]
    exact field_start (length_htons _)
  rw [EthernetHdr.read, hdst, hsrc, htype, ntohs_htons]

theorem srcAddr_ipv4 (after : Bytes) : field (req.ipv4 ++ after) 12 4 = req.srcAddr := by
  rw [ipv4, List.append_assoc, List.append_assoc, field_after (Nat.le_refl 12)]
  exact field_start req.srcAddr_length

theorem parsePacketIpv4Icmp_frame (r : StRepo) (hdr : EthernetHdr) (srcAddr : Bytes) :
    parsePacketIpv4Icmp r hdr srcAddr (req.icmp ++ (req.data ++ padding)) =
      some (echoReply r hdr srcAddr (htons req.id) (htons req.seq) (req.data ++ padding)) := by
  rw [parsePacketIpv4Icmp, if_neg (by rw [List.length_append, length_icmp]; omega), if_pos ⟨rfl, rfl⟩]
  rfl

theorem parsePacketIpv4_frame (r : StRepo) (hdr : EthernetHdr) :
    parsePacketIpv4 r hdr (req.ipv4 ++ (req.icmp ++ (req.data ++ padding))) =
      some (echoReply r hdr req.srcAddr (htons req.id) (htons req.seq) (req.data ++ padding)) := by
  have hprotocol : field (req.ipv4 ++ (req.icmp ++ (req.data ++ padding))) 9 1 = [1] := rfl
  rw [parsePacketIpv4, if_neg (by rw [List.length_append, length_ipv4]; omega), if_pos hprotocol,
    srcAddr_ipv4, List.drop_left' req.length_ipv4, parsePacketIpv4Icmp_frame]

/-- An echo request is answered. -/
theorem parsePacket_frame (r : StRepo) (hsize : 60 ≤ (req.frame padding).length) :
    parsePacket r (req.frame padding) = some (echoReply r ⟨req.dst, req.src, 0x0800⟩ req.srcAddr
      (htons req.id) (htons req.seq) (req.data ++ padding)) := by
  rw [parsePacket, if_neg (by omega), read_ethernet,
    if_neg (by decide : (0x0800 : BitVec 16) ≠ 0x0806), if_pos rfl, frame,
    List.drop_left' req.length_ethernet, parsePacketIpv4_frame]

end EchoRequest

/-! ### What is sent -/

section Replies

variable {r : StRepo} {srcAddr id seq data : Bytes}

theorem length_macBytes (r : StRepo) : r.macBytes.length = 6 := r.mac.length_toList

theorem length_ipBytes (r : StRepo) : r.ipBytes.length = 4 := r.ip.addr.length_toList

theorem length_ipv4Hdr (totalLength checksum : BitVec 16) (hsrc : srcAddr.length = 4) :
    (ipv4Hdr totalLength r.ipBytes srcAddr checksum).length = 20 := by
  simp [ipv4Hdr, length_ipBytes, hsrc]

theorem ipv4Hdr_verifies (totalLength : BitVec 16) (hsrc : srcAddr.length = 4) :
    internetChecksum (ipv4Hdr totalLength r.ipBytes srcAddr
      (internetChecksum (ipv4Hdr totalLength r.ipBytes srcAddr 0))) = 0 := by
  have hverifies := (internetChecksum_verifies
    ([0x45, 0] ++ htons totalLength ++ bytesOf 0x1234 ++ bytesOf 0 ++ [16, 1]) (r.ipBytes ++ srcAddr) (by simp)
    (by simp [length_ipBytes, hsrc])).1
  simpa only [ipv4Hdr, List.append_assoc] using hverifies

theorem icmpReply_verifies (hsize : (id ++ seq ++ data).length ≤ 131068) :
    internetChecksum (icmpReply id seq data (internetChecksum (icmpReply id seq data 0))) = 0 := by
  have hverifies := (internetChecksum_verifies [0, 0] (id ++ seq ++ data) rfl (by
    rw [List.length_cons, List.length_singleton]
    omega)).1
  simpa only [icmpReply, List.append_assoc] using hverifies

/-- A reply carries the data that it has room for. -/
theorem echoReply_mirrors (req : EchoRequest) (r : StRepo) (ptr : Bytes) :
    Mirrors req (ptr.take (min maxData ptr.length)) (echoReply r ⟨req.dst, req.src, 0x0800⟩ req.srcAddr
      (htons req.id) (htons req.seq) ptr) := by
  have hdata : (ptr.take (min maxData ptr.length)).length ≤ 980 :=
    (List.length_take_le ..).trans (Nat.min_le_left ..)
  rw [echoReply]
  generalize ptr.take (min maxData ptr.length) = data at hdata
  have hethernet : (useSwitchingTable ++ EthernetHdr.bytes ⟨req.src, r.macBytes, 0x0800⟩).length = 16 := by
    simp [useSwitchingTable, EthernetHdr.bytes, req.src_length, length_macBytes]
  generalize useSwitchingTable ++ EthernetHdr.bytes ⟨req.src, r.macBytes, 0x0800⟩ = ethernet at hethernet
  have hicmp : ∀ checksum, (icmpReply (htons req.id) (htons req.seq) data checksum).length =
      8 + data.length := by
    intro checksum
    simp [icmpReply]
    omega
  have hicmpChecksum : internetChecksum (icmpReply (htons req.id) (htons req.seq) data
      (internetChecksum (icmpReply (htons req.id) (htons req.seq) data 0))) = 0 :=
    icmpReply_verifies (by simp; omega)
  generalize internetChecksum (icmpReply (htons req.id) (htons req.seq) data 0) = checksum at hicmpChecksum
  rw [hicmp]
  have hipv4Checksum := @ipv4Hdr_verifies r req.srcAddr (BitVec.ofNat 16 (20 + (8 + data.length)))
    req.srcAddr_length
  generalize internetChecksum (ipv4Hdr (BitVec.ofNat 16 (20 + (8 + data.length))) r.ipBytes req.srcAddr 0)
    = headerChecksum at hipv4Checksum
  have hipv4 := @length_ipv4Hdr r req.srcAddr (BitVec.ofNat 16 (20 + (8 + data.length))) headerChecksum
    req.srcAddr_length
  have hheaders : (ethernet ++ ipv4Hdr (BitVec.ofNat 16 (20 + (8 + data.length))) r.ipBytes req.srcAddr
      headerChecksum).length = 36 := by
    rw [List.length_append, hethernet, hipv4]
  constructor
  · rw [field_after hheaders.le, hheaders]
    rfl
  · rw [field_after (by omega), hheaders]
    rfl
  · rw [field_after (by omega), hheaders]
    rfl
  · rw [List.drop_append, hheaders, List.drop_eq_nil_of_le (by omega)]
    rfl
  · have htotal : field (ethernet ++ ipv4Hdr (BitVec.ofNat 16 (20 + (8 + data.length))) r.ipBytes
        req.srcAddr headerChecksum ++ icmpReply (htons req.id) (htons req.seq) data checksum) 18 2 =
        htons (BitVec.ofNat 16 (20 + (8 + data.length))) := by
      rw [List.append_assoc, field_after (by omega), hethernet]
      rfl
    rw [htotal, ntohs_htons, BitVec.toNat_ofNat]
    omega
  · rw [List.append_assoc, field_after hethernet.le, hethernet, Nat.sub_self, field_start hipv4]
    exact hipv4Checksum
  · rw [List.drop_left' hheaders]
    exact hicmpChecksum

end Replies

/-- **Echo replies.** An echo request is answered with its number, lengths and checksums that are right,
and what the reply has room for of its data; and with no other data if the frame ends with the packet. -/
theorem parsePacket_mirrors (r : StRepo) (req : EchoRequest) (padding : Bytes)
    (hsize : 60 ≤ (req.frame padding).length) :
    ∃ sent data, parsePacket r (req.frame padding) = some sent ∧ Mirrors req data sent ∧
      data.take (min maxData req.data.length) = req.data.take maxData ∧
      (padding = [] → data = req.data.take maxData) := by
  refine ⟨_, _, req.parsePacket_frame padding r hsize, echoReply_mirrors req r _, ?_, fun hnone => ?_⟩
  · have hmin : min (min maxData req.data.length) (min maxData (req.data.length + padding.length)) =
        min maxData req.data.length := by
      omega
    rw [List.take_take, List.length_append, hmin, List.take_append_of_le_length (Nat.min_le_right ..),
      ← List.take_eq_take_min]
  · rw [hnone, List.append_nil, ← List.take_eq_take_min]

namespace Pings

def stRepo : StRepo := ⟨#v[0x02, 0, 0, 0, 0, 0xff], ⟨#v[10, 10, 0, 1]⟩⟩

def request (data : Bytes) (fits : 28 + data.length < 2 ^ 16) : EchoRequest where
  dst := [0x02, 0, 0, 0, 0, 0xff]
  src := [0x02, 0, 0, 0, 0, 0x01]
  tos := 0
  identification := 7
  flagsFragmentOffset := 0
  ttl := 64
  headerChecksum := 0
  srcAddr := [10, 10, 0, 128]
  dstAddr := [10, 10, 0, 1]
  checksum := 0
  id := 0x1234
  seq := 1
  data := data
  dst_length := rfl
  src_length := rfl
  srcAddr_length := rfl
  dstAddr_length := rfl
  unfragmented := by decide
  fits := fits

/-- The shortest request without padding. -/
theorem short_mirrors : ∃ sent data,
    parsePacket stRepo ((request (List.replicate 18 1) (by decide)).frame []) = some sent ∧
      Mirrors (request (List.replicate 18 1) (by decide)) data sent ∧ data = List.replicate 18 1 := by
  obtain ⟨sent, data, hsent, hmirrors, -, hdata⟩ :=
    parsePacket_mirrors stRepo (request (List.replicate 18 1) (by decide)) [] (by decide)
  exact ⟨sent, data, hsent, hmirrors, hdata rfl⟩

theorem long_fits : 28 + (List.replicate 981 (1 : BitVec 8)).length < 2 ^ 16 := by
  rw [List.length_replicate]
  decide

/-- The data of a longer one does not fit the buffer of the reply. -/
theorem long_not_mirrors : ¬ ∃ sent,
    parsePacket stRepo ((request (List.replicate 981 1) long_fits).frame []) = some sent ∧
      Mirrors (request (List.replicate 981 1) long_fits) (List.replicate 981 1) sent := by
  rintro ⟨sent, hsent, hmirrors⟩
  have hsize : 60 ≤ ((request (List.replicate 981 1) long_fits).frame []).length := by
    have hdata : (request (List.replicate 981 1) long_fits).data.length = 981 := List.length_replicate ..
    rw [EchoRequest.frame, List.length_append, List.length_append, List.length_append, List.length_append,
      EchoRequest.length_ethernet, EchoRequest.length_ipv4, EchoRequest.length_icmp, hdata]
    decide
  rw [EchoRequest.parsePacket_frame _ _ _ hsize] at hsent
  obtain rfl := Option.some.inj hsent
  have hlength := congrArg List.length (hmirrors.data_eq.symm.trans (echoReply_mirrors _ stRepo _).data_eq)
  have hroom : (List.replicate 981 (1 : BitVec 8)).length ≤ maxData :=
    hlength.trans_le ((List.length_take_le ..).trans (Nat.min_le_left ..))
  rw [List.length_replicate] at hroom
  exact absurd hroom (by decide)

end Pings

end PacketProcessor

end Mpitofino
