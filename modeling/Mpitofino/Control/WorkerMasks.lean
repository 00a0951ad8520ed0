import Mpitofino.Control.WholeDevice

/-!
# The masks of the workers

The masks that the loops over the participants and over the inter-pipe ports give away in one pipe, and
the full bitmap that they are gathered in.
-/

namespace Mpitofino

namespace AsicDriver

open NodeBitmap

/-! ### What is given away -/

section Masks

variable (w : WholeDevice) (rc : CollectiveChannel)

/-- The masks in the order in which the participants get them, with their pipes. -/
def participantMasks : Insertion → List Participant → List (PipeId × NodeBitmap)
  | _, [] => []
  | s, part :: parts =>
      (pipeOf part.switchPort, s.bitmaps.node (pipeOf part.switchPort)) ::
        match insertParticipantOn w rc s part with
        | .ok s' => participantMasks s' parts
        | .error _ => []

def interPipeMasks : Asic × WorkerBitmaps → List PipeId → List (PipeId × NodeBitmap)
  | _, [] => []
  | s, pipe :: pipes =>
      if (s.2.full pipe).low = 0 then interPipeMasks s pipes
      else (3, s.2.node 3) :: interPipeMasks (acceptPipe rc s pipe) pipes

/-- The masks of a pipe, those of the inter-pipe ports behind the others. -/
def masksOf (s s' : Insertion) (parts : List Participant) (pipe : PipeId) : List NodeBitmap :=
  let masks := participantMasks w rc s parts ++
    if haveConnectedPipes s'.bitmaps.full then interPipeMasks rc (s'.asic, s'.bitmaps) [0, 1, 2] else []
  (masks.filter fun x => x.1 = pipe).map Prod.snd

end Masks

/-- The masks are single bits, no bit is used twice, and the full bitmap is their union. -/
structure Assigned (masks : List NodeBitmap) (full : NodeBitmap) : Prop where
  single : ∀ b ∈ masks, ∃ i < 64, ∀ j < 64, b.bit j = decide (j = i)
  distinct : masks.Nodup
  disjoint : masks.Pairwise fun a b => ∀ i < 64, ¬ (a.bit i = true ∧ b.bit i = true)
  union : ∀ i < 64, full.bit i = true ↔ ∃ b ∈ masks, b.bit i = true
  low : full.low = 0 ↔ masks = []

/-! ### What is installed -/

section Installed

variable {w : WholeDevice} {rc : CollectiveChannel} {s s' : Insertion} {part : Participant}
  {parts : List Participant} {pipe : PipeId}

private theorem filter_cons_pipe (pipe pipe' : PipeId) (b : NodeBitmap) (masks : List (PipeId × NodeBitmap)) :
    (((pipe', b) :: masks).filter fun x => x.1 = pipe).map Prod.snd =
      (if pipe = pipe' then [b] else []) ++ (masks.filter fun x => x.1 = pipe).map Prod.snd := by
  by_cases h : pipe = pipe'
  · rw [List.filter_cons_of_pos (by simp [h]), if_pos h]
    rfl
  · rw [List.filter_cons_of_neg (by simp [Ne.symm h]), if_neg h]
    rfl

theorem unitSelector_insertParticipantOn (hok : insertParticipantOn w rc s part = .ok s') :
    (s'.asic.pipes pipe).unitSelector = if pipe = pipeOf part.switchPort then
      (s.asic.pipes pipe).unitSelector.put (participantKey rc part)
        (selectData rc (s.bitmaps.node (pipeOf part.switchPort)))
    else (s.asic.pipes pipe).unitSelector := by
  have hkept : ∀ {a a' : Asic} {k : OutputAddressKey} {d : OutputAddressSet} {recirc : Option PipeId},
      w.putOutputAddress a k d recirc = .ok a' →
      (a'.pipes pipe).unitSelector = (a.pipes pipe).unitSelector := by
    intro a a' k d recirc h
    cases recirc with
    | some recirc =>
        obtain rfl := Except.ok.inj h
        rw [Asic.putOutputAddress, Asic.unitSelector_onPipe]
        exact ite_id _
    | none =>
        cases w with
        | refused => contradiction
        | everyPipe =>
            obtain rfl := Except.ok.inj h
            rfl
  rw [insertParticipantOn] at hok
  split at hok
  · contradiction
  · obtain ⟨asic, hasic, hok⟩ := Fallible.bind_eq_ok.1 hok
    obtain rfl := Except.ok.inj hok
    dsimp only
    rw [Asic.putRoceAckReflector, Asic.unitSelector_onPipe]
    refine (ite_id _).trans ?_
    rw [hkept hasic, Asic.putUnitSelector, Asic.unitSelector_onPipe]

theorem exists_participantWrites (hok : parts.foldlM (insertParticipantOn w rc) s = .ok s') (pipe : PipeId) :
    ∃ writes : List (UnitSelectorKey × SelectAggUnit),
      writes.map Prod.snd = (((participantMasks w rc s parts).filter fun x => x.1 = pipe).map
        Prod.snd).map (selectData rc) ∧
      (s'.asic.pipes pipe).unitSelector = (s.asic.pipes pipe).unitSelector.putAll writes := by
  induction parts generalizing s with
  | nil =>
      rw [Fallible.foldlM_nil_eq_ok] at hok
      exact ⟨[], rfl, by rw [hok]; rfl⟩
  | cons part parts ih =>
      obtain ⟨s₁, h₁, h₂⟩ := Fallible.foldlM_cons_eq_ok.1 hok
      obtain ⟨writes, hmasks, hwrites⟩ := ih h₂
      rw [participantMasks, h₁, filter_cons_pipe, hwrites, unitSelector_insertParticipantOn h₁]
      by_cases hpipe : pipe = pipeOf part.switchPort
      · rw [if_pos hpipe, if_pos hpipe]
        exact ⟨(participantKey rc part, _) :: writes, congrArg (List.cons _) hmasks, rfl⟩
      · rw [if_neg hpipe, if_neg hpipe]
        exact ⟨writes, hmasks, rfl⟩

theorem exists_interPipeWrites (rc : CollectiveChannel) (asic : Asic) (b : WorkerBitmaps)
    (pipes : List PipeId) (pipe : PipeId) : ∃ writes : List (UnitSelectorKey × SelectAggUnit),
      writes.map Prod.snd = (((interPipeMasks rc (asic, b) pipes).filter fun x => x.1 = pipe).map
        Prod.snd).map (selectData rc) ∧
      ((pipes.foldl (acceptPipe rc) (asic, b)).1.pipes pipe).unitSelector =
        (asic.pipes pipe).unitSelector.putAll writes := by
  induction pipes generalizing asic b with
  | nil => exact ⟨[], rfl, rfl⟩
  | cons pipe' pipes ih =>
      rw [interPipeMasks, List.foldl_cons, acceptPipe]
      by_cases hlow : (b.full pipe').low = 0
      · rw [if_pos hlow, if_pos hlow]
        exact ih asic b
      · rw [if_neg hlow, if_neg hlow, filter_cons_pipe]
        obtain ⟨writes, hmasks, hwrites⟩ := ih (asic.putUnitSelector 3 (interPipeKey rc (3 * 128 + 64))
          (selectData rc (b.node 3))) (b.update 3)
        rw [hwrites, Asic.putUnitSelector, Asic.unitSelector_onPipe]
        by_cases hpipe : pipe = 3
        · rw [if_pos hpipe, if_pos hpipe]
          exact ⟨(interPipeKey rc (3 * 128 + 64), _) :: writes, congrArg (List.cons _) hmasks, rfl⟩
        · rw [if_neg hpipe, if_neg hpipe]
          exact ⟨writes, hmasks, rfl⟩

/-- The masks of a pipe are the node bitmaps of the selector entries that are written there, one after the
other. Where pipes are connected, pipe 3 gets one more entry, for packets that are recirculated there. -/
theorem exists_selectorWrites (hok : parts.foldlM (insertParticipantOn w rc) s = .ok s') (pipe : PipeId) :
    ∃ writes : List (UnitSelectorKey × SelectAggUnit),
      writes.map Prod.snd = (masksOf w rc s s' parts pipe).map (selectData rc) ∧
      ((connectPipes rc s'.asic s'.bitmaps).1.pipes pipe).unitSelector =
        (s.asic.pipes pipe).unitSelector.putAll (writes ++
          if haveConnectedPipes s'.bitmaps.full ∧ pipe = 3 then
            [(interPipeKey rc (3 * 128 + 68),
              selectData rc ((connectPipes rc s'.asic s'.bitmaps).2.node 3))]
          else []) := by
  obtain ⟨writes, hmasks, hwrites⟩ := exists_participantWrites hok pipe
  rw [masksOf, connectPipes]
  by_cases hconnected : haveConnectedPipes s'.bitmaps.full = true
  · obtain ⟨writes', hmasks', hwrites'⟩ := exists_interPipeWrites rc s'.asic s'.bitmaps [0, 1, 2] pipe
    rw [if_pos hconnected, if_pos hconnected]
    refine ⟨writes ++ writes', ?_, ?_⟩
    · rw [List.map_append, hmasks, hmasks', List.filter_append, List.map_append, List.map_append]
    · dsimp only
      rw [Asic.putUnitSelector, Asic.unitSelector_onPipe, hwrites', hwrites, FinTable.putAll_append,
        FinTable.putAll_append]
      by_cases hpipe : pipe = 3
      · rw [if_pos hpipe, if_pos ⟨hconnected, hpipe⟩]
        rfl
      · rw [if_neg hpipe, if_neg fun h => hpipe h.2]
        rfl
  · rw [if_neg hconnected, if_neg hconnected, if_neg fun h => hconnected h.1, List.append_nil]
    exact ⟨writes, hmasks, by rw [List.append_nil]; exact hwrites⟩

end Installed

/-! ### Counting -/

/-- The masks that are given away to these pipes, one after the other. -/
def masksAt (count : PipeId → Nat) : List PipeId → List (PipeId × NodeBitmap)
  | [] => []
  | pipe :: pipes =>
      (pipe, nodeAt (count pipe)) :: masksAt (Function.update count pipe (count pipe + 1)) pipes

def countWith (count : PipeId → Nat) (pipes : List PipeId) (pipe : PipeId) : Nat :=
  count pipe + pipes.count pipe

section Counting

variable {count : PipeId → Nat} {pipe : PipeId} {pipes pipes' : List PipeId}

theorem countWith_cons : countWith count (pipe :: pipes) =
    countWith (Function.update count pipe (count pipe + 1)) pipes := by
  funext pipe'
  by_cases h : pipe' = pipe
  · subst h
    rw [countWith, countWith, Function.update_self, List.count_cons_self]
    omega
  · rw [countWith, countWith, Function.update_of_ne h, List.count_cons_of_ne (Ne.symm h)]

theorem masksAt_append : masksAt count (pipes ++ pipes') =
    masksAt count pipes ++ masksAt (countWith count pipes) pipes' := by
  induction pipes generalizing count with
  | nil => rfl
  | cons pipe pipes ih => rw [List.cons_append, masksAt, masksAt, ih, List.cons_append, countWith_cons]

theorem filter_masksAt (pipe : PipeId) :
    ((masksAt count pipes).filter fun x => x.1 = pipe).map Prod.snd =
      (List.range' (count pipe) (pipes.count pipe)).map nodeAt := by
  induction pipes generalizing count with
  | nil => rfl
  | cons pipe' pipes ih =>
      rw [masksAt]
      by_cases h : pipe' = pipe
      · subst h
        rw [List.filter_cons, if_pos (decide_eq_true rfl), List.map_cons, ih, Function.update_self,
          List.count_cons_self, List.range'_succ, List.map_cons]
      · rw [List.filter_cons, if_neg (by simpa using h), ih, Function.update_of_ne (Ne.symm h),
          List.count_cons_of_ne h]

theorem assigned_range {n : Nat} (hn : n ≤ 64) :
    Assigned ((List.range n).map nodeAt) (fullAt n) := by
  have hbit : ∀ k < n, ∀ i < 64, (nodeAt k).bit i = decide (i = k) := fun k hk i hi =>
    bit_nodeAt (hk.trans_le hn) hi
  have hpairwise : ((List.range n).map nodeAt).Pairwise fun a b =>
      ∀ i < 64, ¬ (a.bit i = true ∧ b.bit i = true) := by
    rw [List.pairwise_map]
    refine List.pairwise_lt_range.imp_of_mem fun {k k'} hk hk' hlt i hi => ?_
    rw [hbit k (List.mem_range.1 hk) i hi, hbit k' (List.mem_range.1 hk') i hi, decide_eq_true_eq,
      decide_eq_true_eq]
    omega
  refine ⟨fun b hb => ?_, ?_, hpairwise, fun i hi => ?_, ?_⟩
  · obtain ⟨k, hk, rfl⟩ := List.mem_map.1 hb
    have hlt := List.mem_range.1 hk
    exact ⟨k, hlt.trans_le hn, hbit k hlt⟩
  · refine List.Nodup.map_on (fun k hk k' hk' heq => ?_) List.nodup_range
    have hlt := List.mem_range.1 hk
    have hself := hbit k hlt k (hlt.trans_le hn)
    rw [heq, hbit k' (List.mem_range.1 hk') k (hlt.trans_le hn), decide_eq_decide] at hself
    exact hself.2 rfl
  · rw [bit_fullAt hn hi, decide_eq_true_eq]
    constructor
    · intro hlt
      refine ⟨nodeAt i, List.mem_map_of_mem (List.mem_range.2 hlt), ?_⟩
      rw [hbit i hlt i hi, decide_eq_true rfl]
    · rintro ⟨b, hb, hset⟩
      obtain ⟨k, hk, rfl⟩ := List.mem_map.1 hb
      rw [hbit k (List.mem_range.1 hk) i hi, decide_eq_true_eq] at hset
      rw [hset]
      exact List.mem_range.1 hk
  · rw [fullAt_low_eq_zero_iff hn, List.map_eq_nil_iff, List.range_eq_nil]

end Counting

/-! ### The loops -/

section Loops

variable {rc : CollectiveChannel} {s s' : Insertion} {part : Participant} {parts : List Participant}
  {count : PipeId → Nat}

def pipesOf (parts : List Participant) : List PipeId := parts.map fun part => pipeOf part.switchPort

theorem insertParticipantOn_everyPipe (hs : s.bitmaps = WorkerBitmaps.counted count)
    (hroom : ∀ pipe, count pipe ≤ CollectiveChannel.capacity pipe) :
    (CollectiveChannel.capacity (pipeOf part.switchPort) ≤ count (pipeOf part.switchPort) ∧
        insertParticipantOn .everyPipe rc s part = .error "Too many clients per pipe") ∨
      (count (pipeOf part.switchPort) < CollectiveChannel.capacity (pipeOf part.switchPort) ∧
        ∃ s₁, insertParticipantOn .everyPipe rc s part = .ok s₁ ∧
          s₁.bitmaps = WorkerBitmaps.counted (Function.update count (pipeOf part.switchPort)
            (count (pipeOf part.switchPort) + 1))) := by
  have hle := (hroom (pipeOf part.switchPort)).trans (capacity_le _)
  have hiff : (s.bitmaps.full (pipeOf part.switchPort)).high < bitmapLimit (pipeOf part.switchPort) ↔
      count (pipeOf part.switchPort) < CollectiveChannel.capacity (pipeOf part.switchPort) := by
    rw [hs]
    exact high_lt_limit ⟨count (pipeOf part.switchPort), by omega⟩ _
  rw [insertParticipantOn]
  split
  · rename_i hfull
    exact Or.inl ⟨not_lt.1 (mt hiff.2 (BitVec.not_lt.2 hfull)), rfl⟩
  · rename_i hfree
    refine Or.inr ⟨hiff.1 (BitVec.not_le.1 hfree), ?_⟩
    rw [hs, WorkerBitmaps.update_counted]
    cases recircPipe (pipeOf part.switchPort) <;> exact ⟨_, rfl, rfl⟩

/-- The loop over the participants gives away the next masks while there is room, and fails where there
is none. -/
theorem insertAll_everyPipe (hs : s.bitmaps = WorkerBitmaps.counted count)
    (hroom : ∀ pipe, count pipe ≤ CollectiveChannel.capacity pipe) :
    ((∃ pipe, CollectiveChannel.capacity pipe < countWith count (pipesOf parts) pipe) ∧
        parts.foldlM (insertParticipantOn .everyPipe rc) s = .error "Too many clients per pipe") ∨
      ((∀ pipe, countWith count (pipesOf parts) pipe ≤ CollectiveChannel.capacity pipe) ∧
        participantMasks .everyPipe rc s parts = masksAt count (pipesOf parts) ∧
        ∃ s', parts.foldlM (insertParticipantOn .everyPipe rc) s = .ok s' ∧
          s'.bitmaps = WorkerBitmaps.counted (countWith count (pipesOf parts))) := by
  induction parts generalizing s count with
  | nil => exact Or.inr ⟨hroom, rfl, s, rfl, hs⟩
  | cons part parts ih =>
      have hcons : pipesOf (part :: parts) = pipeOf part.switchPort :: pipesOf parts := rfl
      rw [List.foldlM_cons, hcons, participantMasks, masksAt]
      rcases @insertParticipantOn_everyPipe rc s part count hs hroom with
        ⟨hfull, herror⟩ | ⟨hfree, s₁, hok, hs₁⟩
      · rw [herror]
        refine Or.inl ⟨⟨pipeOf part.switchPort, ?_⟩, rfl⟩
        rw [countWith, List.count_cons_self]
        omega
      · rw [hok, countWith_cons, hs]
        refine (ih hs₁ fun pipe => ?_).imp (fun h => h) fun h => ⟨h.1, congrArg _ h.2.1, h.2.2⟩
        by_cases hpipe : pipe = pipeOf part.switchPort
        · rw [hpipe, Function.update_self]
          exact hfree
        · rw [Function.update_of_ne hpipe]
          exact hroom pipe

theorem interPipeMasks_counted {asic : Asic} {pipes : List PipeId} (hpipes : ∀ pipe ∈ pipes, pipe ≠ 3)
    (hcount : ∀ pipe ∈ pipes, count pipe ≤ 64) :
    interPipeMasks rc (asic, WorkerBitmaps.counted count) pipes =
        masksAt count (List.replicate (pipes.countP fun pipe => count pipe ≠ 0) 3) ∧
      (pipes.foldl (acceptPipe rc) (asic, WorkerBitmaps.counted count)).2 =
        WorkerBitmaps.counted (countWith count
          (List.replicate (pipes.countP fun pipe => count pipe ≠ 0) 3)) := by
  induction pipes generalizing asic count with
  | nil => exact ⟨rfl, rfl⟩
  | cons pipe pipes ih =>
      obtain ⟨hne, hpipes⟩ := List.forall_mem_cons.1 hpipes
      obtain ⟨hle, hcount⟩ := List.forall_mem_cons.1 hcount
      have hlow : ((WorkerBitmaps.counted count).full pipe).low = 0 ↔ count pipe = 0 :=
        fullAt_low_eq_zero_iff hle
      rw [List.foldl_cons, interPipeMasks]
      by_cases hzero : count pipe = 0
      · rw [if_pos (hlow.2 hzero), acceptPipe, if_pos (hlow.2 hzero),
          List.countP_cons_of_neg (by simpa using hzero)]
        exact ih hpipes hcount
      · have haccept : acceptPipe rc (asic, WorkerBitmaps.counted count) pipe =
            (asic.putUnitSelector 3 (interPipeKey rc (3 * 128 + 64)) (selectData rc (nodeAt (count 3))),
              WorkerBitmaps.counted (Function.update count 3 (count 3 + 1))) := by
          rw [acceptPipe, if_neg (mt hlow.1 hzero)]
          exact congrArg _ (WorkerBitmaps.update_counted ..)
        have hsame : ∀ pipe ∈ pipes, Function.update count 3 (count 3 + 1) pipe = count pipe :=
          fun pipe hpipe => Function.update_of_ne (hpipes pipe hpipe) ..
        have hcountP : (pipes.countP fun pipe => Function.update count 3 (count 3 + 1) pipe ≠ 0) =
            pipes.countP fun pipe => count pipe ≠ 0 :=
          List.countP_congr fun pipe hpipe => by rw [hsame pipe hpipe]
        obtain ⟨hmasks, hbitmaps⟩ := @ih (Function.update count 3 (count 3 + 1))
          (asic.putUnitSelector 3 (interPipeKey rc (3 * 128 + 64))
            (selectData rc (nodeAt (count 3)))) hpipes
          fun pipe hpipe => by rw [hsame pipe hpipe]; exact hcount pipe hpipe
        rw [if_neg (mt hlow.1 hzero), haccept, List.countP_cons_of_pos (by simpa using hzero),
          List.replicate_succ, masksAt, countWith_cons, hmasks, hbitmaps, hcountP]
        exact ⟨rfl, rfl⟩

theorem assigned_masksOf (hmasks : participantMasks .everyPipe rc s parts =
      masksAt (fun _ => 0) (pipesOf parts))
    (hs' : s'.bitmaps = WorkerBitmaps.counted (countWith (fun _ => 0) (pipesOf parts)))
    (hroom : ∀ pipe, countWith (fun _ => 0) (pipesOf parts) pipe ≤ CollectiveChannel.capacity pipe)
    (pipe : PipeId) : Assigned (masksOf .everyPipe rc s s' parts pipe)
      ((connectPipes rc s'.asic s'.bitmaps).2.full pipe) := by
  have hranged : ∀ pipes : List PipeId, (pipesOf parts ++ pipes).count pipe ≤ 64 →
      Assigned (((masksAt (fun _ => 0) (pipesOf parts ++ pipes)).filter fun x => x.1 = pipe).map Prod.snd)
        (fullAt (countWith (countWith (fun _ => 0) (pipesOf parts)) pipes pipe)) := by
    intro pipes hle
    have hcount : countWith (countWith (fun _ => 0) (pipesOf parts)) pipes pipe =
        (pipesOf parts ++ pipes).count pipe := by
      rw [countWith, countWith, Nat.zero_add, List.count_append]
    rw [filter_masksAt, hcount, ← List.range_eq_range']
    exact assigned_range hle
  have hlength : ∀ pipe, (pipesOf parts).count pipe ≤ CollectiveChannel.capacity pipe := fun pipe =>
    (Nat.zero_add _).symm.trans_le (hroom pipe)
  rw [masksOf, hmasks, connectPipes, hs']
  by_cases hconnected : haveConnectedPipes
      (WorkerBitmaps.counted (countWith (fun _ => 0) (pipesOf parts))).full = true
  · obtain ⟨hinter, hbitmaps⟩ := @interPipeMasks_counted rc
      (countWith (fun _ => 0) (pipesOf parts)) s'.asic [0, 1, 2] (by decide)
      fun pipe _ => (hroom pipe).trans (capacity_le pipe)
    rw [if_pos hconnected, if_pos hconnected, hinter, ← masksAt_append]
    dsimp only
    rw [hbitmaps]
    refine hranged _ ?_
    have hinterPipes := List.countP_le_length
      (p := fun pipe : PipeId => decide (countWith (fun _ => 0) (pipesOf parts) pipe ≠ 0))
      (l := [0, 1, 2])
    have hle := hlength pipe
    rw [CollectiveChannel.capacity] at hle
    rw [List.count_append, List.count_replicate]
    change _ ≤ 3 at hinterPipes
    by_cases h3 : pipe = 3
    · subst h3
      rw [if_pos rfl] at hle
      rw [if_pos (by decide)]
      omega
    · rw [if_neg h3] at hle
      rw [if_neg (by simpa using Ne.symm h3)]
      omega
  · rw [if_neg hconnected, if_neg hconnected, List.append_nil]
    have hpart := hranged [] (by
      rw [List.append_nil]
      exact (hlength pipe).trans (capacity_le pipe))
    rwa [List.append_nil] at hpart

end Loops

/-- **Worker masks.** For any participants the loop fails exactly when a pipe has more of them than
there is room for. Otherwise the masks of each pipe, with those of the inter-pipe ports, are different
single bits, and the full bitmap is their union. -/
theorem insertAll_masks (rc : CollectiveChannel) (asic : Asic) (parts : List Participant) :
    (parts.foldlM (insertParticipantOn .everyPipe rc) ⟨asic, WorkerBitmaps.initial, 1⟩ =
        .error "Too many clients per pipe" ↔
      (∃ pipe ≠ 3, 64 < (pipesOf parts).count pipe) ∨ 61 < (pipesOf parts).count 3) ∧
    ∀ s', parts.foldlM (insertParticipantOn .everyPipe rc) ⟨asic, WorkerBitmaps.initial, 1⟩ = .ok s' →
      ∀ pipe, Assigned (masksOf .everyPipe rc ⟨asic, WorkerBitmaps.initial, 1⟩ s' parts pipe)
        ((connectPipes rc s'.asic s'.bitmaps).2.full pipe) := by
  have hcounts : ∀ pipe, countWith (fun _ => 0) (pipesOf parts) pipe = (pipesOf parts).count pipe :=
    fun pipe => Nat.zero_add _
  have hfull : (∃ pipe, CollectiveChannel.capacity pipe < (pipesOf parts).count pipe) ↔
      (∃ pipe ≠ 3, 64 < (pipesOf parts).count pipe) ∨ 61 < (pipesOf parts).count 3 := by
    constructor
    · rintro ⟨pipe, hlt⟩
      rw [CollectiveChannel.capacity] at hlt
      split at hlt
      · rename_i h3
        exact Or.inr (h3 ▸ hlt)
      · rename_i hne
        exact Or.inl ⟨pipe, hne, hlt⟩
    · rintro (⟨pipe, hne, hlt⟩ | hlt)
      · refine ⟨pipe, ?_⟩
        rwa [CollectiveChannel.capacity, if_neg hne]
      · exact ⟨3, hlt⟩
  rcases @insertAll_everyPipe rc ⟨asic, WorkerBitmaps.initial, 1⟩ parts (fun _ => 0)
    WorkerBitmaps.initial_eq fun _ => Nat.zero_le _ with ⟨hover, herror⟩ | ⟨hroom, hmasks, s₁, hok, hs₁⟩
  · simp only [hcounts] at hover
    rw [herror]
    exact ⟨iff_of_true rfl (hfull.1 hover), fun s' hok => by contradiction⟩
  · have hnone : ¬ ∃ pipe, CollectiveChannel.capacity pipe < (pipesOf parts).count pipe := by
      rintro ⟨pipe, hlt⟩
      have hle := hroom pipe
      rw [hcounts] at hle
      omega
    rw [hok, ← hfull]
    refine ⟨iff_of_false nofun hnone, fun s' hs' pipe => ?_⟩
    obtain rfl := Except.ok.inj hs'
    exact assigned_masksOf hmasks hs₁ hroom pipe

namespace TwoWorkers

def parts : List Participant := [⟨7, 10, 5, 0x100, 6, 0⟩, ⟨8, 11, 5, 0x100, 6, 384⟩]

def channel : CollectiveChannel where
  tag := 0
  fabricIp := 1
  fabricQpCommon := 1
  fabricMac := 1024
  aggUnit := 0
  participants := OrderedMap.empty

/-- The participant of pipe 3 gets the first mask there, and the inter-pipe port the second one. -/
theorem parts_masks : ∃ s', parts.foldlM (insertParticipantOn .everyPipe channel)
      ⟨initialSetup 1024, WorkerBitmaps.initial, 1⟩ = .ok s' ∧
    masksOf .everyPipe channel ⟨initialSetup 1024, WorkerBitmaps.initial, 1⟩ s' parts 3 =
      [⟨1, 0⟩, ⟨2, 0⟩] ∧
    Assigned [⟨1, 0⟩, ⟨2, 0⟩] ((connectPipes channel s'.asic s'.bitmaps).2.full 3) := by
  refine ⟨_, rfl, by decide +kernel, ?_⟩
  exact (insertAll_masks channel (initialSetup 1024) parts).2 _ rfl 3

end TwoWorkers

end AsicDriver

end Mpitofino
