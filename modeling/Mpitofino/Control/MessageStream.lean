import Mathlib.Data.BitVec
import Mpitofino.Library.CutStream
import Mpitofino.Library.Fallible

/-!
# Messages on a stream

The client library and the node daemon talk over a stream socket. A message is preceded by its size, as
four bytes in network order. Messages are serialized and parsed by a library: `serializeToString` and
`parseFromArray` are parameters.
-/

namespace Mpitofino

/-- The bytes of a word in network order. -/
def htobe32 (w : BitVec 32) : List (BitVec 8) :=
  [w.extractLsb' 24 8, w.extractLsb' 16 8, w.extractLsb' 8 8, w.extractLsb' 0 8]

def be32toh : List (BitVec 8) → BitVec 32
  | [b₃, b₂, b₁, b₀] => b₃ ++ b₂ ++ b₁ ++ b₀
  | _ => 0

/-- The loop of `dynamic_buffer::ensure_size`, where sizes have 64 bits. -/
def growSize (s : Nat) : Nat → Nat → Except String Nat
  | 0, newSize => .ok newSize
  | rounds + 1, newSize =>
      if newSize < s then
        if newSize ≥ (2 ^ 64 - 1) / 2 then .error "size too large" else growSize s rounds (newSize * 2)
      else .ok newSize

/-- The size of the buffer when `s` bytes are needed. After 64 rounds a size was too large. -/
def ensureSize (size s : Nat) : Except String Nat :=
  if size < s then growSize s 64 (if size > 0 then size else 1) else .ok size

section Messages

variable {T : Type} (serializeToString : T → Option (List (BitVec 8)))
  (parseFromArray : List (BitVec 8) → Option T)

def sendProtobufMessageSimpleStream (fd : CutStream (BitVec 8)) (msg : T) :
    Except String (CutStream (BitVec 8)) :=
  match serializeToString msg with
  | none => .error "Faled to serialize message"
  | some s =>
      let length := htobe32 (BitVec.ofNat 32 s.length)
      if (fd.write length).1 ≠ 4 then .error "failed to write message length"
      else .ok (CutStream.writeLoop s s.length 0 (fd.write length).2)

def recvBody (length : Nat) (fd : CutStream (BitVec 8)) :
    Except String (Option T × CutStream (BitVec 8)) := do
  let _ ← ensureSize 0 length
  match CutStream.readLoop length length [] fd with
  | (none, fd) => .ok (none, fd)
  | (some buf, fd) =>
      match parseFromArray buf with
      | none => .error "Failed to receive message"
      | some msg => .ok (some msg, fd)

/-- No message stands for `nullptr`. -/
def recvProtobufMessageSimpleStream (fd : CutStream (BitVec 8)) :
    Except String (Option T × CutStream (BitVec 8)) :=
  match CutStream.readLoop 4 4 [] fd with
  | (none, fd) => .ok (none, fd)
  | (some length, fd) => recvBody parseFromArray (be32toh length).toNat fd

def sendAll (msgs : List T) (fd : CutStream (BitVec 8)) : Except String (CutStream (BitVec 8)) :=
  msgs.foldlM (sendProtobufMessageSimpleStream serializeToString) fd

/-- The messages up to the first `nullptr`, if that comes within so many calls. -/
def recvAll : Nat → CutStream (BitVec 8) → Except String (Option (List T))
  | 0, _ => .ok none
  | calls + 1, fd => do
      match ← recvProtobufMessageSimpleStream parseFromArray fd with
      | (none, _) => return some []
      | (some msg, fd) => return (← recvAll calls fd).map (msg :: ·)

def frame (msg : T) : List (BitVec 8) :=
  match serializeToString msg with
  | none => []
  | some s => htobe32 (BitVec.ofNat 32 s.length) ++ s

end Messages

/-! ### Sizes -/

theorem be32toh_htobe32 (w : BitVec 32) : be32toh (htobe32 w) = w := by
  have hword : w.extractLsb' 24 8 ++ w.extractLsb' 16 8 ++ w.extractLsb' 8 8 ++ w.extractLsb' 0 8 = w := by
    rw [BitVec.extractLsb'_append_extractLsb'_eq_extractLsb' (by rfl),
      BitVec.extractLsb'_append_extractLsb'_eq_extractLsb' (by rfl),
      BitVec.extractLsb'_append_extractLsb'_eq_extractLsb' (by rfl)]
    exact BitVec.extractLsb'_eq_self
  exact hword

theorem growSize_ok {s rounds newSize : Nat} (hs : s < 2 ^ 32) (hnew : 0 < newSize)
    (hrounds : s ≤ newSize * 2 ^ rounds) : ∃ size, growSize s rounds newSize = .ok size ∧ s ≤ size := by
  induction rounds generalizing newSize with
  | zero => exact ⟨newSize, rfl, by simpa using hrounds⟩
  | succ rounds ih =>
      rw [growSize]
      split
      · rw [if_neg (by omega)]
        exact ih (by omega) (by rwa [Nat.mul_assoc, ← Nat.pow_succ'])
      · exact ⟨newSize, rfl, by omega⟩

theorem ensureSize_ok {s : Nat} (hs : s < 2 ^ 32) : ∃ size, ensureSize 0 s = .ok size ∧ s ≤ size := by
  rw [ensureSize, if_neg (Nat.lt_irrefl 0)]
  split
  · exact growSize_ok hs Nat.one_pos (by omega)
  · exact ⟨0, rfl, by omega⟩

/-! ### One message -/

section Transfers

variable {T : Type} {serializeToString : T → Option (List (BitVec 8))}
  {parseFromArray : List (BitVec 8) → Option T} {fd fd' : CutStream (BitVec 8)} {msg : T}
  {s : List (BitVec 8)}

theorem frame_eq (h : serializeToString msg = some s) :
    frame serializeToString msg = htobe32 (BitVec.ofNat 32 s.length) ++ s := by
  rw [frame, h]

theorem length_htobe32 (w : BitVec 32) : (htobe32 w).length = 4 := rfl

theorem send_ok (h : sendProtobufMessageSimpleStream serializeToString fd msg = .ok fd') :
    (∃ s, serializeToString msg = some s) ∧
      fd'.pending = fd.pending ++ frame serializeToString msg := by
  rw [sendProtobufMessageSimpleStream] at h
  split at h
  · contradiction
  · rename_i s hs
    dsimp only at h
    split at h
    · contradiction
    · rename_i hlength
      have hall : (fd.write (htobe32 (BitVec.ofNat 32 s.length))).2.pending =
          fd.pending ++ htobe32 (BitVec.ofNat 32 s.length) := by
        have hfour : fd.amount (htobe32 (BitVec.ofNat 32 s.length)).length = 4 := not_not.1 hlength
        rw [CutStream.write, hfour]
        rfl
      rw [← Except.ok.inj h, CutStream.writeLoop_pending (Nat.le_add_right ..), hall, frame_eq hs,
        List.drop_zero, List.append_assoc]
      exact ⟨⟨s, hs⟩, rfl⟩

theorem recvBody_eq (parseFromArray : List (BitVec 8) → Option T) (fd : CutStream (BitVec 8)) {length : Nat}
    (hlength : length < 2 ^ 32) : ∃ fd', fd'.pending = fd.pending.drop length ∧
    recvBody parseFromArray length fd =
      if length ≤ fd.pending.length then
        match parseFromArray (fd.pending.take length) with
        | none => .error "Failed to receive message"
        | some msg => .ok (some msg, fd')
      else .ok (none, fd') := by
  obtain ⟨size, hsize, -⟩ := ensureSize_ok hlength
  obtain ⟨hresult, hpending⟩ := CutStream.readLoop_start length fd
  refine ⟨_, hpending, ?_⟩
  rw [recvBody, hsize]
  change (match CutStream.readLoop length length [] fd with
    | (none, fd) => Except.ok (none, fd)
    | (some buf, fd) =>
        match parseFromArray buf with
        | none => .error "Failed to receive message"
        | some msg => .ok (some msg, fd)) = _
  generalize CutStream.readLoop length length [] fd = read at hresult
  obtain ⟨result, fd₁⟩ := read
  dsimp only at hresult
  by_cases hle : length ≤ fd.pending.length
  · rw [if_pos hle] at hresult ⊢
    subst hresult
    rfl
  · rw [if_neg hle] at hresult ⊢
    subst hresult
    rfl

theorem recv_eq (parseFromArray : List (BitVec 8) → Option T) (fd : CutStream (BitVec 8)) : ∃ fd', fd'.pending = fd.pending.drop 4 ∧
    recvProtobufMessageSimpleStream parseFromArray fd =
      if 4 ≤ fd.pending.length then
        recvBody parseFromArray (be32toh (fd.pending.take 4)).toNat fd'
      else .ok (none, fd') := by
  obtain ⟨hresult, hpending⟩ := CutStream.readLoop_start 4 fd
  refine ⟨_, hpending, ?_⟩
  rw [recvProtobufMessageSimpleStream]
  generalize CutStream.readLoop 4 4 [] fd = read at hresult
  obtain ⟨result, fd₁⟩ := read
  dsimp only at hresult
  by_cases hle : 4 ≤ fd.pending.length
  · rw [if_pos hle] at hresult ⊢
    subst hresult
    rfl
  · rw [if_neg hle] at hresult ⊢
    subst hresult
    rfl

theorem size_of_frame (hsize : s.length < 2 ^ 32) :
    (be32toh (htobe32 (BitVec.ofNat 32 s.length))).toNat = s.length := by
  rw [be32toh_htobe32, BitVec.toNat_ofNat, Nat.mod_eq_of_lt hsize]

theorem recv_frame (hparse : ∀ msg s, serializeToString msg = some s → parseFromArray s = some msg)
    (hs : serializeToString msg = some s) (hsize : s.length < 2 ^ 32) {rest : List (BitVec 8)}
    (hpending : fd.pending = frame serializeToString msg ++ rest) :
    ∃ fd', recvProtobufMessageSimpleStream parseFromArray fd = .ok (some msg, fd') ∧
      fd'.pending = rest := by
  rw [frame_eq hs, List.append_assoc] at hpending
  obtain ⟨fd₁, hpending₁, hrecv⟩ := recv_eq parseFromArray fd
  have htake : fd.pending.take 4 = htobe32 (BitVec.ofNat 32 s.length) := by
    rw [hpending]
    exact List.take_left' (length_htobe32 _)
  have hdrop : fd₁.pending = s ++ rest := by
    rw [hpending₁, hpending]
    exact List.drop_left' (length_htobe32 _)
  obtain ⟨fd₂, hpending₂, hbody⟩ := recvBody_eq parseFromArray fd₁ hsize
  refine ⟨fd₂, ?_, ?_⟩
  · rw [hrecv, if_pos (by rw [hpending, List.length_append, length_htobe32]; omega), htake,
      size_of_frame hsize, hbody, hdrop, if_pos (by rw [List.length_append]; omega), List.take_left,
      hparse msg s hs]
  · rw [hpending₂, hdrop, List.drop_left]

theorem recv_cut (hs : serializeToString msg = some s) (hsize : s.length < 2 ^ 32)
    (hpre : fd.pending <+: frame serializeToString msg)
    (hshort : fd.pending.length < (frame serializeToString msg).length) :
    ∃ fd', recvProtobufMessageSimpleStream parseFromArray fd = .ok (none, fd') := by
  rw [frame_eq hs] at hpre hshort
  rw [List.length_append, length_htobe32] at hshort
  obtain ⟨fd₁, hpending₁, hrecv⟩ := recv_eq parseFromArray fd
  rw [hrecv]
  split
  · rename_i hfour
    have htake : fd.pending.take 4 = htobe32 (BitVec.ofNat 32 s.length) := by
      obtain ⟨rest, hrest⟩ := hpre
      have hboth : (fd.pending ++ rest).take 4 = htobe32 (BitVec.ofNat 32 s.length) := by
        rw [hrest]
        exact List.take_left' (length_htobe32 _)
      rwa [List.take_append_of_le_length hfour] at hboth
    obtain ⟨fd₂, -, hbody⟩ := recvBody_eq parseFromArray fd₁ hsize
    refine ⟨fd₂, ?_⟩
    rw [htake, size_of_frame hsize, hbody, if_neg (by rw [hpending₁, List.length_drop]; omega)]
  · exact ⟨fd₁, rfl⟩

end Transfers

/-! ### All messages -/

section Streams

variable {T : Type} {serializeToString : T → Option (List (BitVec 8))}
  {parseFromArray : List (BitVec 8) → Option T}

theorem sendAll_ok {msgs : List T} {fd fd' : CutStream (BitVec 8)}
    (h : sendAll serializeToString msgs fd = .ok fd') :
    (∀ msg ∈ msgs, ∃ s, serializeToString msg = some s) ∧
      fd'.pending = fd.pending ++ msgs.flatMap (frame serializeToString) := by
  rw [sendAll] at h
  induction msgs generalizing fd with
  | nil =>
      rw [Fallible.foldlM_nil_eq_ok.1 h, List.flatMap_nil, List.append_nil]
      exact ⟨fun msg hmsg => absurd hmsg List.not_mem_nil, rfl⟩
  | cons msg msgs ih =>
      obtain ⟨fd₁, hfirst, hrest⟩ := Fallible.foldlM_cons_eq_ok.1 h
      obtain ⟨hmsg, hwritten⟩ := send_ok hfirst
      obtain ⟨hmsgs, hpending⟩ := ih hrest
      rw [hpending, hwritten, List.flatMap_cons, List.append_assoc]
      exact ⟨List.forall_mem_cons.2 ⟨hmsg, hmsgs⟩, rfl⟩

theorem recvAll_nil {calls : Nat} {fd fd' : CutStream (BitVec 8)} (hcalls : 0 < calls)
    (h : recvProtobufMessageSimpleStream parseFromArray fd = .ok (none, fd')) :
    recvAll parseFromArray calls fd = .ok (some []) := by
  obtain ⟨calls, rfl⟩ := Nat.exists_eq_add_of_lt hcalls
  rw [Nat.zero_add, recvAll, h]
  rfl

theorem recvAll_cons {calls : Nat} {fd fd' : CutStream (BitVec 8)} {msg : T} {msgs : List T}
    (h : recvProtobufMessageSimpleStream parseFromArray fd = .ok (some msg, fd'))
    (hrest : recvAll parseFromArray calls fd' = .ok (some msgs)) :
    recvAll parseFromArray (calls + 1) fd = .ok (some (msg :: msgs)) := by
  rw [recvAll, h]
  change (do return (← recvAll parseFromArray calls fd').map (msg :: ·)) = _
  rw [hrest]
  rfl

/-- From a prefix of what is written for some messages those are received that it has whole. -/
theorem recvAll_prefix (hparse : ∀ msg s, serializeToString msg = some s → parseFromArray s = some msg)
    {msgs : List T} (hserialize : ∀ msg ∈ msgs, ∃ s, serializeToString msg = some s ∧ s.length < 2 ^ 32)
    (fd : CutStream (BitVec 8)) (hpre : fd.pending <+: msgs.flatMap (frame serializeToString)) :
    ∃ n ≤ msgs.length,
      (∀ calls > fd.pending.length, recvAll parseFromArray calls fd = .ok (some (msgs.take n))) ∧
      ∀ k ≤ msgs.length,
        ((msgs.take k).flatMap (frame serializeToString)).length ≤ fd.pending.length ↔ k ≤ n := by
  induction msgs generalizing fd with
  | nil =>
      obtain ⟨fd₁, -, hrecv⟩ := recv_eq parseFromArray fd
      have hnil : fd.pending = [] := List.prefix_nil.1 hpre
      rw [hnil, if_neg (by decide)] at hrecv
      refine ⟨0, Nat.le_refl _, fun calls hcalls => recvAll_nil (by omega) hrecv, fun k hk => ?_⟩
      obtain rfl := Nat.le_zero.1 hk
      exact iff_of_true (Nat.zero_le _) (Nat.le_refl _)
  | cons msg msgs ih =>
      obtain ⟨⟨s, hs, hsize⟩, hserialize⟩ := List.forall_mem_cons.1 hserialize
      rw [List.flatMap_cons] at hpre
      by_cases hwhole : (frame serializeToString msg).length ≤ fd.pending.length
      · -- the message is received, and the rest comes from the rest of the prefix
        obtain ⟨rest, hrest⟩ : frame serializeToString msg <+: fd.pending :=
          List.prefix_of_prefix_length_le (List.prefix_append ..) hpre hwhole
        obtain ⟨fd', hrecv, hpending⟩ := recv_frame hparse hs hsize hrest.symm
        have hpre' : fd'.pending <+: msgs.flatMap (frame serializeToString) := by
          rw [← hrest, List.prefix_append_right_inj] at hpre
          rwa [hpending]
        have hlength : (frame serializeToString msg).length + fd'.pending.length = fd.pending.length := by
          rw [hpending, ← List.length_append, hrest]
        have hpos : 0 < (frame serializeToString msg).length := by
          rw [frame_eq hs, List.length_append, length_htobe32]
          omega
        obtain ⟨n, hn, hall, hcontained⟩ := ih hserialize fd' hpre'
        refine ⟨n + 1, Nat.succ_le_succ hn, fun calls hcalls => ?_, fun k hk => ?_⟩
        · obtain ⟨calls, rfl⟩ := Nat.exists_eq_add_of_lt (Nat.zero_lt_of_lt hcalls)
          rw [Nat.zero_add] at hcalls ⊢
          exact recvAll_cons hrecv (hall calls (by omega))
        cases k with
        | zero => exact iff_of_true (Nat.zero_le _) (Nat.zero_le _)
        | succ k =>
            rw [List.take_succ_cons, List.flatMap_cons, List.length_append, Nat.succ_le_succ_iff,
              ← hcontained k (Nat.succ_le_succ_iff.1 hk), ← hlength]
            exact Nat.add_le_add_iff_left
      · have hcut : fd.pending <+: frame serializeToString msg :=
          List.prefix_of_prefix_length_le hpre (List.prefix_append ..) (Nat.le_of_not_le hwhole)
        obtain ⟨fd', hrecv⟩ := recv_cut hs hsize hcut (Nat.lt_of_not_le hwhole)
        refine ⟨0, Nat.zero_le _, fun calls hcalls => recvAll_nil (by omega) hrecv, fun k _ => ?_⟩
        cases k with
        | zero => exact iff_of_true (Nat.zero_le _) (Nat.le_refl _)
        | succ k =>
            refine iff_of_false ?_ (Nat.not_succ_le_zero k)
            rw [List.take_succ_cons, List.flatMap_cons, List.length_append]
            omega

/-- **Framing.** However the stream cuts what is sent and received, the messages that were sent are
received in order, and then none. If it ends early, the messages that are wholly in it are received, and
then none: those of the first `k` sends where what these had written is still there. -/
theorem recvAll_sendAll (serializeToString : T → Option (List (BitVec 8)))
    (parseFromArray : List (BitVec 8) → Option T)
    (hparse : ∀ msg s, serializeToString msg = some s → parseFromArray s = some msg) (msgs : List T)
    (hsize : ∀ msg ∈ msgs, ∀ s, serializeToString msg = some s → s.length < 2 ^ 32)
    (cuts : Nat → Nat) (sent : CutStream (BitVec 8))
    (hsent : sendAll serializeToString msgs ⟨[], cuts⟩ = .ok sent) (cuts' : Nat → Nat) :
    (∀ calls > sent.pending.length,
      recvAll parseFromArray calls ⟨sent.pending, cuts'⟩ = .ok (some msgs)) ∧
    ∀ bytes, bytes <+: sent.pending → ∃ n ≤ msgs.length,
      (∀ calls > bytes.length, recvAll parseFromArray calls ⟨bytes, cuts'⟩ = .ok (some (msgs.take n))) ∧
      ∀ k ≤ msgs.length, ∀ sentₖ, sendAll serializeToString (msgs.take k) ⟨[], cuts⟩ = .ok sentₖ →
        (sentₖ.pending.length ≤ bytes.length ↔ k ≤ n) := by
  obtain ⟨hserialize, hpending⟩ := sendAll_ok hsent
  rw [List.nil_append] at hpending
  have hboth : ∀ msg ∈ msgs, ∃ s, serializeToString msg = some s ∧ s.length < 2 ^ 32 := by
    intro msg hmsg
    obtain ⟨s, hs⟩ := hserialize msg hmsg
    exact ⟨s, hs, hsize msg hmsg s hs⟩
  have hfirst : ∀ k sentₖ, sendAll serializeToString (msgs.take k) ⟨[], cuts⟩ = .ok sentₖ →
      sentₖ.pending = (msgs.take k).flatMap (frame serializeToString) := fun k sentₖ h =>
    (sendAll_ok h).2.trans (List.nil_append _)
  rw [hpending]
  constructor
  · obtain ⟨n, hn, hall, hcontained⟩ := recvAll_prefix hparse hboth
      ⟨msgs.flatMap (frame serializeToString), cuts'⟩ (List.prefix_refl _)
    have hlength := (hcontained msgs.length (Nat.le_refl _)).1 (by rw [List.take_length])
    rw [Nat.le_antisymm hn hlength, List.take_length] at hall
    exact hall
  · intro bytes hbytes
    obtain ⟨n, hn, hall, hcontained⟩ := recvAll_prefix hparse hboth ⟨bytes, cuts'⟩ hbytes
    refine ⟨n, hn, hall, fun k hk sentₖ h => ?_⟩
    rw [hfirst k sentₖ h]
    exact hcontained k hk

end Streams

namespace ThreeMessages

/-- Messages that are their bytes, one of them empty. -/
def msgs : List (List (BitVec 8)) := [[1, 2], [], [3]]

def sent : CutStream (BitVec 8) := ⟨[0, 0, 0, 2, 1, 2, 0, 0, 0, 0, 0, 0, 0, 1, 3], fun _ => 4⟩

/-- The stream as a whole, and without its last byte. -/
theorem msgs_received :
    (∀ calls > 15, recvAll some calls ⟨sent.pending, fun _ => 3⟩ = .ok (some msgs)) ∧
      ∀ calls > 14, recvAll some calls ⟨sent.pending.take 14, fun _ => 1⟩ = .ok (some [[1, 2], []]) := by
  have hsize : ∀ msg ∈ msgs, ∀ s, some msg = some s → s.length < 2 ^ 32 := by
    rintro msg hmsg s ⟨⟩
    exact (by decide : ∀ msg ∈ msgs, msg.length < 2 ^ 32) msg hmsg
  refine ⟨(recvAll_sendAll some some (fun _ _ h => h.symm) msgs hsize (fun _ => 4) sent rfl _).1, ?_⟩
  obtain ⟨n, hn, hall, hcontained⟩ := (recvAll_sendAll some some (fun _ _ h => h.symm) msgs hsize
    (fun _ => 4) sent rfl (fun _ => 1)).2 (sent.pending.take 14) (List.take_prefix ..)
  have htwo : 2 ≤ n := (hcontained 2 (by decide) ⟨sent.pending.take 10, fun _ => 4⟩ rfl).1 (by decide)
  have hthree : ¬ 3 ≤ n := mt (hcontained 3 (by decide) sent rfl).2 (by decide)
  obtain rfl : n = 2 := by omega
  exact hall

end ThreeMessages

end Mpitofino
