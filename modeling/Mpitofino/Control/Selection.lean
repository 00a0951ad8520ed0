import Mpitofino.Control.Programmed
import Mpitofino.Dataplane.Slot

/-!
# What a packet of a channel meets

The lookups of programmed tables, for the packets of a channel whose common part of the fabric QPs is
its own: the unit selector answers with an entry of the channel, `choose_action` adds on the first pass
and clears on the recirculated one, and `check_complete` recirculates exactly the packet that fills the
bitmap.
-/

namespace Mpitofino

namespace AsicDriver

open FinTable (lastWrite)
open StateRepository (commonOf)

/-- Programmed channels that share neither a unit nor a common part of the fabric QPs. -/
structure Separate (channels : List CollectiveChannel) : Prop where
  aggUnits : (knownChannels channels).Pairwise fun rc rc' => rc.aggUnit ≠ rc'.aggUnit
  commons : ∀ rc ∈ knownChannels channels, ∀ rc' ∈ knownChannels channels,
    rc.fabricQpCommon = rc'.fabricQpCommon → rc = rc'
  fabricQps : ∀ rc ∈ knownChannels channels, ∀ p ∈ rc.members,
    commonOf p.fabricQp = rc.fabricQpCommon

/-! ### The unit selector -/

section Selector

variable {channels : List CollectiveChannel} {asic : Asic} {pipe : PipeId}
  {k : UnitSelectorKey} {d : SelectAggUnit} {q : UnitSelectorQuery}

theorem mem_unitSelector (h : Programmed channels asic)
    (hmem : (k, d) ∈ (asic.pipes pipe).unitSelector.entries) :
    ∃ rc ∈ knownChannels channels, (k, d) ∈ selectorWrites rc pipe := by
  rw [FinTable.mem_entries_iff, h.unitSelector] at hmem
  exact List.mem_flatMap.1 (FinTable.mem_of_lastWrite hmem)

theorem mem_selectorWrites_cases {rc : CollectiveChannel} (hmem : (k, d) ∈ selectorWrites rc pipe) :
    (∃ i p, (rc.onPipe pipe)[i]? = some p ∧ k = participantKey rc p ∧
        d = selectData rc (NodeBitmap.nodeAt i)) ∨
      (pipe = 3 ∧ rc.connected = true ∧
        (k = interPipeKey rc 448 ∧ d = selectData rc (NodeBitmap.nodeAt (rc.count 3)) ∨
          k = interPipeKey rc 452 ∧ d = selectData rc (NodeBitmap.nodeAt (rc.count 3 + 1)))) := by
  rcases List.mem_append.1 hmem with hmem | hmem
  · obtain ⟨⟨p, i⟩, he, heq⟩ := List.mem_map.1 hmem
    obtain ⟨rfl, rfl⟩ := Prod.mk.inj heq
    exact Or.inl ⟨i, p, List.mk_mem_zipIdx_iff_getElem?.1 he, rfl, rfl⟩
  · split at hmem
    · rename_i hpipe
      rw [interPipeSelectorWrites] at hmem
      split at hmem
      · rename_i hconnected
        refine Or.inr ⟨hpipe, hconnected, ?_⟩
        simpa using hmem
      · contradiction
    · contradiction

/-- A QP is matched under the mask of the common part when it has that common part. -/
theorem matches_common {fabricQpCommon : BitVec 16} {qp : BitVec 24} :
    (⟨fabricQpCommon.setWidth 24 <<< 8, 0xffff00⟩ : Ternary 24).Matches qp ↔
      commonOf qp = fabricQpCommon := by
  have hmask : ∀ i : Fin 24, (0xffff00#24).getLsbD i = decide (8 ≤ i.val) := by decide
  have hbit : ∀ i : Nat, i < 24 → ((qp &&& 0xffff00#24).getLsbD i =
      ((fabricQpCommon.setWidth 24 <<< 8) &&& 0xffff00#24).getLsbD i ↔
        (8 ≤ i → (commonOf qp).getLsbD (i - 8) = fabricQpCommon.getLsbD (i - 8))) := by
    intro i hi
    rw [BitVec.getLsbD_and, BitVec.getLsbD_and, hmask ⟨i, hi⟩, commonOf, BitVec.getLsbD_extractLsb',
      BitVec.getLsbD_shiftLeft, BitVec.getLsbD_setWidth]
    by_cases h8 : 8 ≤ i
    · simp [h8, hi, show i - 8 < 16 by omega, show i - 8 < 24 by omega, show ¬ i < 8 by omega]
    · simp [h8]
  constructor
  · intro h
    apply BitVec.eq_of_getLsbD_eq
    intro i hi
    have hi' := (hbit (i + 8) (by omega)).1 (congrArg (fun x => BitVec.getLsbD x (i + 8)) h) (by omega)
    rwa [Nat.add_sub_cancel] at hi'
  · intro h
    apply BitVec.eq_of_getLsbD_eq
    intro i hi
    exact (hbit i hi).2 fun _ => by rw [h]

theorem hits_participantKey {rc : CollectiveChannel} {p : Participant} :
    (participantKey rc p).Hits q ↔
      q.srcAddr = p.ip ∧ rc.fabricIp = q.dstAddr ∧ q.dstQp = p.fabricQp := by
  have hqp : (⟨p.fabricQp, 0xffffff⟩ : Ternary 24) = Ternary.exact p.fabricQp := by
    rw [Ternary.exact, show (0xffffff : BitVec 24) = BitVec.allOnes 24 by decide]
  simp only [UnitSelectorKey.Hits, participantKey, hqp, Ternary.matches_exact, Ternary.matches_any,
    and_true]

theorem hits_interPipeKey {rc : CollectiveChannel} {port : PortId} :
    (interPipeKey rc port).Hits q ↔
      rc.fabricIp = q.dstAddr ∧ commonOf q.dstQp = rc.fabricQpCommon ∧ q.ingressPort = port := by
  have hport : (⟨port, 0x1ff⟩ : Ternary 9) = Ternary.exact port := by
    rw [Ternary.exact, show (0x1ff : BitVec 9) = BitVec.allOnes 9 by decide]
  simp only [UnitSelectorKey.Hits, interPipeKey, hport, Ternary.matches_exact, Ternary.matches_any,
    matches_common, true_and]

/-- The entries of a channel match its own fabric QPs only. -/
theorem commonOf_of_hits {rc : CollectiveChannel}
    (hqps : ∀ p ∈ rc.members, commonOf p.fabricQp = rc.fabricQpCommon)
    (hmem : (k, d) ∈ selectorWrites rc pipe) (hhits : k.Hits q) :
    commonOf q.dstQp = rc.fabricQpCommon := by
  rcases mem_selectorWrites_cases hmem with ⟨i, p, hp, rfl, -⟩ | ⟨-, -, ⟨rfl, -⟩ | ⟨rfl, -⟩⟩
  · rw [(hits_participantKey.1 hhits).2.2]
    exact hqps p (List.mem_of_mem_filter (List.mem_of_getElem? hp))
  · exact (hits_interPipeKey.1 hhits).2.1
  · exact (hits_interPipeKey.1 hhits).2.1

/-- The packets of a channel are answered with its own entries. -/
theorem pick_unitSelector (h : Programmed channels asic) (hsep : Separate channels) (m : Matcher)
    {rc : CollectiveChannel} (hrc : rc ∈ knownChannels channels)
    (hqp : commonOf q.dstQp = rc.fabricQpCommon)
    (hpick : m.unitSelector.pick (asic.pipes pipe).unitSelector q = some d) :
    ∃ k, (k, d) ∈ selectorWrites rc pipe ∧ k.Hits q := by
  obtain ⟨k, hmem, hhits⟩ := m.unitSelector.hit_of_pick hpick
  obtain ⟨rc', hrc', hwrite⟩ := mem_unitSelector h hmem
  have hcommon := commonOf_of_hits (hsep.fabricQps rc' hrc') hwrite hhits
  obtain rfl := hsep.commons rc' hrc' rc hrc (hcommon.symm.trans hqp)
  exact ⟨k, hwrite, hhits⟩

theorem exists_pick_unitSelector (h : Programmed channels asic) (m : Matcher)
    {rc : CollectiveChannel} (hrc : rc ∈ knownChannels channels)
    (hwrite : (k, d) ∈ selectorWrites rc pipe) (hhits : k.Hits q) :
    ∃ d', m.unitSelector.pick (asic.pipes pipe).unitSelector q = some d' := by
  obtain ⟨d', hd'⟩ := Option.ne_none_iff_exists'.1 fun hnone =>
    FinTable.lastWrite_eq_none_iff.1 hnone
      (List.mem_map_of_mem (f := Prod.fst) (show (k, d) ∈ selectorTable channels pipe from
        List.mem_flatMap.2 ⟨rc, hrc, hwrite⟩))
  refine Option.ne_none_iff_exists'.1 fun hnone => ?_
  refine m.unitSelector.miss_of_pick hnone (k, d') ?_ hhits
  rw [FinTable.mem_entries_iff, h.unitSelector]
  exact hd'

end Selector

/-! ### The actions of a unit -/

section Actions

variable {channels : List CollectiveChannel} {asic : Asic} {rc : CollectiveChannel}
  (h : Programmed channels asic) (hsep : Separate channels) (hrc : rc ∈ knownChannels channels)

theorem completeWrites_eq {pipe : PipeId} (hpipe : 0 < rc.count pipe) : completeWrites rc pipe =
    [(completeKey (rc.aggUnit.setWidth 8) (NodeBitmap.fullAt (rc.contributions pipe)),
        .checkCompleteTrue (recircPort pipe)),
      (clearKey (rc.aggUnit.setWidth 8), clearAction rc.connected rc pipe)] := by
  rw [completeWrites, if_neg (by omega)]

include hrc

theorem lastWrite_chooseAction (isClear : Bool) :
    lastWrite ⟨rc.aggUnit.setWidth 8, isClear⟩ (chooseActionTable channels) =
      some (if isClear then .aggInt32Clear else .aggInt32Add) := by
  refine FinTable.lastWrite_eq_some (List.mem_flatMap.2 ⟨rc, hrc, ?_⟩) fun a ha => ?_
  · cases isClear <;> simp [chooseActionWrites]
  · obtain ⟨rc', hrc', hwrite⟩ := List.mem_flatMap.1 ha
    simp only [chooseActionWrites, List.mem_cons, List.not_mem_nil, or_false] at hwrite
    rcases hwrite with hwrite | hwrite
    · obtain ⟨hkey, rfl⟩ := Prod.mk.inj hwrite
      obtain ⟨-, rfl⟩ := ChooseActionKey.mk.inj hkey
      rfl
    · obtain ⟨hkey, rfl⟩ := Prod.mk.inj hwrite
      obtain ⟨-, rfl⟩ := ChooseActionKey.mk.inj hkey
      rfl

include h

theorem lookup_chooseAction (j : Fin 32) (isClear : Bool) :
    (asic.chooseAction j).lookup ⟨rc.aggUnit.setWidth 8, isClear⟩ =
      some (if isClear then .aggInt32Clear else .aggInt32Add) := by
  rw [h.chooseAction, lastWrite_chooseAction hrc]

include hsep

/-- Among the programmed channels the low byte of the unit tells the channel. -/
theorem eq_of_setWidth_aggUnit {rc' : CollectiveChannel} (hrc' : rc' ∈ knownChannels channels)
    (heq : rc'.aggUnit.setWidth 8 = rc.aggUnit.setWidth 8) : rc' = rc := by
  refine eq_of_aggUnit hsep.aggUnits hrc' hrc (BitVec.eq_of_toNat_eq ?_)
  rw [← toNat_setWidth_aggUnit (h.fits rc' hrc'), ← toNat_setWidth_aggUnit (h.fits rc hrc), heq]

variable {pipe : PipeId} (hpipe : 0 < rc.count pipe)

include hpipe

theorem mem_checkComplete {k : CheckCompleteKey} {a : CheckCompleteAction}
    (hunit : k.aggUnit = rc.aggUnit.setWidth 8) :
    (k, a) ∈ (asic.pipes pipe).checkComplete.entries ↔ (k, a) ∈ completeWrites rc pipe := by
  rw [FinTable.mem_entries_iff, h.checkComplete]
  have hwrite : ∀ a', (k, a') ∈ completeTable channels pipe → (k, a') ∈ completeWrites rc pipe := by
    intro a' ha'
    obtain ⟨rc', hrc', hwrite⟩ := List.mem_flatMap.1 ha'
    have heq := (aggUnit_of_mem_completeWrites hwrite).symm.trans hunit
    obtain rfl := eq_of_setWidth_aggUnit h hsep hrc hrc' heq
    exact hwrite
  constructor
  · intro hlast
    exact hwrite a (FinTable.mem_of_lastWrite hlast)
  · intro hmem
    refine FinTable.lastWrite_eq_some (List.mem_flatMap.2 ⟨rc, hrc, hmem⟩) fun a' ha' => ?_
    have ha' := hwrite a' ha'
    rw [completeWrites_eq hpipe] at hmem ha'
    have hne : completeKey (rc.aggUnit.setWidth 8) (NodeBitmap.fullAt (rc.contributions pipe)) ≠
        clearKey (rc.aggUnit.setWidth 8) := by
      simp [completeKey, clearKey]
    simp only [List.mem_cons, List.not_mem_nil, or_false, Prod.mk.injEq] at hmem ha'
    rcases hmem with ⟨rfl, rfl⟩ | ⟨rfl, rfl⟩
    · exact (ha'.resolve_right fun h => hne h.1).2
    · exact (ha'.resolve_left fun h => hne h.1.symm).2

theorem pick_checkComplete_add (m : Matcher) (bitmap : NodeBitmap) :
    m.checkComplete.pick (asic.pipes pipe).checkComplete ⟨rc.aggUnit.setWidth 8, bitmap, false⟩ =
      if bitmap = NodeBitmap.fullAt (rc.contributions pipe) then
        some (.checkCompleteTrue (recircPort pipe))
      else none := by
  have hhits : ∀ k a, (k, a) ∈ (asic.pipes pipe).checkComplete.entries →
      k.Hits ⟨rc.aggUnit.setWidth 8, bitmap, false⟩ →
        bitmap = NodeBitmap.fullAt (rc.contributions pipe) ∧
          a = .checkCompleteTrue (recircPort pipe) := by
    intro k a hmem hhits
    have hmem := (mem_checkComplete h hsep hrc hpipe hhits.1).1 hmem
    rw [completeWrites_eq hpipe] at hmem
    simp only [List.mem_cons, List.not_mem_nil, or_false, Prod.mk.injEq] at hmem
    rcases hmem with ⟨rfl, rfl⟩ | ⟨rfl, -⟩
    · obtain ⟨-, hlow, hhigh, -⟩ := hhits
      refine ⟨?_, rfl⟩
      cases bitmap
      exact NodeBitmap.mk.injEq .. ▸ ⟨Ternary.matches_exact.1 hlow, Ternary.matches_exact.1 hhigh⟩
    · exact absurd hhits.2.2.2 Bool.noConfusion
  by_cases hfull : bitmap = NodeBitmap.fullAt (rc.contributions pipe)
  · rw [if_pos hfull]
    refine m.checkComplete.pick_eq_some (k := completeKey (rc.aggUnit.setWidth 8) bitmap)
      ((mem_checkComplete h hsep hrc hpipe rfl).2 ?_) ?_ fun k a hmem hk => (hhits k a hmem hk).2
    · rw [completeWrites_eq hpipe, hfull]
      exact List.mem_cons_self
    · exact ⟨rfl, Ternary.matches_exact.2 rfl, Ternary.matches_exact.2 rfl, rfl⟩
  · rw [if_neg hfull]
    exact m.checkComplete.pick_eq_none fun e he hk => hfull (hhits e.1 e.2 he hk).1

theorem pick_checkComplete_clear (m : Matcher) (bitmap : NodeBitmap) :
    m.checkComplete.pick (asic.pipes pipe).checkComplete ⟨rc.aggUnit.setWidth 8, bitmap, true⟩ =
      some (clearAction rc.connected rc pipe) := by
  refine m.checkComplete.pick_eq_some (k := clearKey (rc.aggUnit.setWidth 8))
    ((mem_checkComplete h hsep hrc hpipe rfl).2 ?_) ?_ fun k a hmem hk => ?_
  · rw [completeWrites_eq hpipe]
    exact List.mem_cons_of_mem _ List.mem_cons_self
  · exact ⟨rfl, Ternary.matches_any _, Ternary.matches_any _, rfl⟩
  · have hmem := (mem_checkComplete h hsep hrc hpipe hk.1).1 hmem
    rw [completeWrites_eq hpipe] at hmem
    simp only [List.mem_cons, List.not_mem_nil, or_false, Prod.mk.injEq] at hmem
    rcases hmem with ⟨rfl, -⟩ | ⟨-, rfl⟩
    · exact absurd hk.2.2.2 Bool.noConfusion
    · rfl

end Actions

end AsicDriver

end Mpitofino
