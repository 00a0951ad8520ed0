import Mpitofino.Library.Run
import Mpitofino.System.Aggregation

/-!
# The switch refines its combiners

Along every run from empty registers each slot of a programmed channel takes the steps of its combiner,
and leaves empty cells behind whenever it distributes.
-/

namespace Mpitofino

open AsicDriver
open StateRepository (WellFormed)

/-- Tables that hold a programmed channel serve it. -/
theorem serving_of_programmed {r : StateRepository} (hr : WellFormed r) {rc : CollectiveChannel}
    (hknown : rc ∈ knownChannels r.getChannels) (hnonempty : rc.members ≠ [])
    (hports : ∀ p ∈ rc.members, p.switchPort ∈ frontPanelPorts)
    (haddresses : (rc.members.map fun p => (p.ip, p.fabricQp)).Nodup) {asic : Asic}
    (hprogrammed : Programmed r.getChannels asic)
    (hcollective : asic.switchingTable.lookup rc.fabricMac = some .collective) :
    Serving r.getChannels asic rc where
  programmed := hprogrammed
  separate := separate_of_wellFormed hr
  known := hknown
  nonempty := hnonempty
  collective := hcollective
  frontPanel := hports
  addresses := haddresses

theorem collective_of_initialSetup {channels : List CollectiveChannel} {mac : MacAddr} {asic : Asic}
    (hok : onStRepoChannels channels (initialSetup mac) = .ok asic) :
    asic.switchingTable.lookup mac = some .collective := by
  rw [(onStRepoChannels_ok hok).switchingTable, initialSetup, FinTable.putAll_cons,
    FinTable.putAll_cons, FinTable.putAll_nil, FinTable.lookup_put, if_pos rfl]

theorem serving_of_initialSetup {r : StateRepository} (hr : WellFormed r) {rc : CollectiveChannel}
    (hknown : rc ∈ knownChannels r.getChannels) (hnonempty : rc.members ≠ [])
    (hports : ∀ p ∈ rc.members, p.switchPort ∈ frontPanelPorts)
    (haddresses : (rc.members.map fun p => (p.ip, p.fabricQp)).Nodup) {asic : Asic}
    (hok : onStRepoChannels r.getChannels (initialSetup rc.fabricMac) = .ok asic) :
    Serving r.getChannels asic rc :=
  serving_of_programmed hr hknown hnonempty hports haddresses
    (programmed_of_initialSetup (distinct_of_wellFormed hr) hok) (collective_of_initialSetup hok)

namespace Traffic

variable {rc : CollectiveChannel} {t t' : Traffic} {channels : List CollectiveChannel} {m : Matcher}
  {asic : Asic}

theorem inv_start (h : Serving channels asic rc) : Inv rc start := by
  refine ⟨fun p seq f hf => by contradiction, fun k hk => ⟨firstStage rc, ?_⟩,
    fun k hk => Combiner.sound_start, fun k hk => rfl, fun r hr => absurd hr List.not_mem_nil⟩
  exact atStage_first (fun p hp => pipe_of_member h hp) h.nonempty rfl rfl (fun p hp => rfl) rfl _

theorem Inv.step (h : Serving channels asic rc) {e : TrafficEvent} (hinv : Inv rc t)
    (hstep : Step m asic rc t e t') : Inv rc t' := by
  cases hstep with
  | arrive hmay hf => exact hinv.arrive h hmay hf
  | internal hinside => exact hinv.internal h hinside

/-! ### What holds in every state -/

/-- What the switch distributed. -/
structure Aggregated (rc : CollectiveChannel) (t : Traffic) : Prop where
  once : (t.switch.results.map Result.seq).Nodup
  sent : ∀ r ∈ t.switch.results, ∀ p ∈ rc.members, (t.sent p r.seq).isSome
  sums : ∀ r ∈ t.switch.results,
    r.hdr.aggregate = (rc.members.map (wordsOf fun p => t.sent p r.seq)).sum
  groups : ∀ r ∈ t.switch.results, r.mcastGrp = mcastGroup rc.aggUnit
  finished : ∀ seq, (∀ p ∈ rc.members, (t.sent p seq).isSome) →
    (∀ pkt ∈ t.switch.inside, pkt.seq ≠ seq) → t.Distributed seq

section State

variable (hinv : Inv rc t)

include hinv

theorem Inv.nodup_results : (t.switch.results.map Result.seq).Nodup := by
  refine List.nodup_iff_count_le_one.2 fun seq => ?_
  have hk : seq % 256 < 256 := Nat.mod_lt _ (by decide)
  have hcount : (t.switch.results.map Result.seq).count seq =
      ((t.resultsOf (seq % 256)).map Result.seq).count seq := by
    rw [List.count_eq_countP, List.count_eq_countP, List.countP_map, List.countP_map, resultsOf,
      List.countP_filter]
    refine List.countP_congr fun r hr => ?_
    simp only [Function.comp_apply, beq_iff_eq, Bool.and_eq_true, decide_eq_true_eq]
    exact ⟨fun heq => ⟨heq, by rw [heq]⟩, fun heq => heq.1⟩
  rw [hcount, hinv.rounds _ hk]
  refine List.nodup_iff_count_le_one.1 ?_ seq
  refine List.Nodup.map (fun n n' heq => ?_) List.nodup_range
  omega

theorem Inv.result_getElem? {r : Result} (hr : r ∈ t.switch.results) :
    (t.combiner (r.seq % 256)).released[r.seq / 256]? = some r.hdr.aggregate := by
  have hk : r.seq % 256 < 256 := Nat.mod_lt _ (by decide)
  obtain ⟨n, hn⟩ := List.mem_iff_getElem?.1
    (show r ∈ t.resultsOf (r.seq % 256) from List.mem_filter.2 ⟨hr, decide_eq_true rfl⟩)
  have hseq := congrArg (·[n]?) (hinv.rounds _ hk)
  have hlt := (List.getElem?_eq_some_iff.1 hn).1
  simp only [List.getElem?_map, hn, List.getElem?_range hlt, Option.map_some,
    Option.some.injEq] at hseq
  rw [show r.seq / 256 = n by omega]
  change ((t.resultsOf (r.seq % 256)).map fun r => r.hdr.aggregate)[n]? = _
  rw [List.getElem?_map, hn, Option.map_some]

theorem Inv.sums {r : Result} (hr : r ∈ t.switch.results) :
    r.hdr.aggregate = (rc.members.map (wordsOf fun p => t.sent p r.seq)).sum := by
  have hk : r.seq % 256 < 256 := Nat.mod_lt _ (by decide)
  rw [(hinv.sound _ hk).sums _ _ (hinv.result_getElem? hr), Combiner.sumOf]
  refine congrArg List.sum (List.map_congr_left fun p _ => ?_)
  change ((t.sent p (256 * (r.seq / 256) + r.seq % 256)).map Frame.aggregate).getD 0 = _
  rw [Nat.div_add_mod]
  rfl

theorem Inv.sent_of_distributed {seq : Nat} (hdistributed : t.Distributed seq) {p : Participant}
    (hp : p ∈ rc.members) : (t.sent p seq).isSome := by
  have hk : seq % 256 < 256 := Nat.mod_lt _ (by decide)
  have hlt := hinv.distributed_iff.1 hdistributed
  rw [current] at hlt
  have hsome := (hinv.sound _ hk).past (seq / 256) (by rw [round_combiner]; omega) p hp
  change ((t.sent p (256 * (seq / 256) + seq % 256)).map Frame.aggregate).isSome = true at hsome
  rwa [Nat.div_add_mod, Option.isSome_map] at hsome

theorem Inv.le_current {seq : Nat} {p : Participant} (hsent : (t.sent p seq).isSome) :
    seq ≤ t.current (seq % 256) := by
  have hk : seq % 256 < 256 := Nat.mod_lt _ (by decide)
  by_contra hlt
  rw [current] at hlt
  have hnone := (hinv.sound _ hk).future p (seq / 256) (by rw [round_combiner]; omega)
  change (t.sent p (256 * (seq / 256) + seq % 256)).map Frame.aggregate = none at hnone
  rw [Nat.div_add_mod, Option.map_eq_none_iff] at hnone
  rw [hnone] at hsent
  contradiction

/-- Where everything was sent, a slot holds its packet back no longer than that packet is inside. -/
theorem Inv.finished (h : Serving channels asic rc) {seq : Nat}
    (hsent : ∀ p ∈ rc.members, (t.sent p seq).isSome)
    (hinside : ∀ pkt ∈ t.switch.inside, pkt.seq ≠ seq) : t.Distributed seq := by
  have hk : seq % 256 < 256 := Nat.mod_lt _ (by decide)
  obtain ⟨p, hp⟩ := List.exists_mem_of_ne_nil _ h.nonempty
  rw [hinv.distributed_iff]
  by_contra hge
  have hcurrent : t.current (seq % 256) = seq :=
    Nat.le_antisymm (Nat.le_of_not_lt hge) (hinv.le_current (hsent p hp))
  obtain ⟨stage, hstage⟩ := hinv.slots _ hk
  rw [hcurrent] at hstage
  have hgiven : ∀ pipe, ∀ p ∈ rc.onPipe pipe, (t.sent p seq).isSome := fun pipe p hp =>
    hsent p (mem_onPipe.1 hp).1
  have hcarries : ∀ {port from' words}, ¬ Carries (t.view rc seq) seq port from' words := by
    rintro port from' words ⟨p, f, agg, -, -, hpackets, -⟩
    have hmem : (⟨port, { f with aggregate := agg }, seq⟩ : Packet) ∈ (t.view rc seq).packets := by
      rw [hpackets]
      exact List.mem_cons_self
    exact hinside _ (List.mem_of_mem_filter hmem) rfl
  cases stage with
  | collecting0 => exact hstage.progress0.1 rfl (complete_contributed (hgiven 0) nofun)
  | clearing0 => exact hcarries hstage.token
  | crossing => exact hcarries hstage.token.2
  | collecting3 => exact hstage.waiting3 rfl (complete_contributed (hgiven 3) fun _ _ => rfl)
  | clearing3 => exact hcarries hstage.token.2

theorem Inv.aggregated (h : Serving channels asic rc) : Aggregated rc t where
  once := hinv.nodup_results
  sent r hr p hp := hinv.sent_of_distributed ⟨r, hr, rfl⟩ hp
  sums r hr := hinv.sums hr
  groups r hr := by
    obtain ⟨p, f, -, horigin⟩ := hinv.origin r hr
    rw [horigin]
    rfl
  finished seq hsent hinside := hinv.finished h hsent hinside

end State

/-! ### What holds of every step -/

/-- What an event does: each slot takes a step of its combiner or none, and a packet that is
distributed leaves the cells of its slot empty. -/
structure Refines (rc : CollectiveChannel) (t : Traffic) (_ : TrafficEvent) (t' : Traffic) :
    Prop where
  slots : ∀ k < 256, t'.combiner k = t.combiner k ∨
    Combiner.Step rc.members (t.combiner k) (t'.combiner k)
  empties : t'.switch.results = t.switch.results ∨ ∃ r,
    t'.switch.results = t.switch.results ++ [r] ∧
      ∀ pipe, pipe = 0 ∨ pipe = 3 → (t'.switch.regs pipe).cell (slotIndex rc r.seq) = Cell.zero

theorem Inv.refines (h : Serving channels asic rc) (hinv : Inv rc t) {e : TrafficEvent}
    (hstep : Step m asic rc t e t') : Refines rc t e t' := by
  cases hstep with
  | @arrive p seq f hmay hf =>
      obtain ⟨i, hp⟩ := List.mem_iff_getElem?.1 (mem_onPipe.2 ⟨hmay.1, rfl⟩)
      have hresults : (t.switch.process m asic ⟨p.switchPort, f, seq⟩).results = t.switch.results := by
        rw [process_arrive h hp hf]
      have hcurrent := hinv.current_of_maySend hmay
      generalize t.switch.process m asic ⟨p.switchPort, f, seq⟩ = sw at hresults ⊢
      have hgive : combiner ⟨sw, sentWith t.sent p seq f⟩ (seq % 256) =
          (t.combiner (seq % 256)).give p f.aggregate := combiner_give rfl hresults hcurrent
      refine ⟨fun k hk => ?_, Or.inl hresults⟩
      by_cases hslot : k = seq % 256
      · right
        rw [hslot, hgive]
        refine .give _ hmay.1 ?_
        rw [given_round hcurrent, hmay.2.1]
        rfl
      · exact Or.inl (combiner_of_other rfl (congrArg (List.filter _) hresults) hk hslot)
  | @internal before after pkt hinside =>
      obtain ⟨hcurrent, -, hpassed⟩ := hinv.passed (m := m) h hinside
      generalize { t.switch with inside := before ++ after }.process m asic pkt = sw at hpassed ⊢
      have hsame : sw.results = t.switch.results → Refines rc t (.internal before.length)
          ⟨sw, t.sent⟩ := fun hresults =>
        ⟨fun k hk => Or.inl (by rw [combiner, combiner, resultsOf, hresults, resultsOf]),
          Or.inl hresults⟩
      cases hpassed with
      | handed f hport hbefore hinside' hresults hafter => exact hsame hresults
      | taken hport hbefore hresults hafter => exact hsame hresults
      | distributed pipe p f sum hport hpipe hf hfinishes hinside' hresults hafter =>
          refine ⟨fun k hk => ?_, Or.inr ⟨_, hresults, fun pipe' hpipe' => ?_⟩⟩
          · by_cases hslot : k = pkt.seq % 256
            · right
              have hrelease : combiner ⟨sw, t.sent⟩ (pkt.seq % 256) =
                  (t.combiner (pkt.seq % 256)).release rc.members :=
                combiner_release hresults rfl hcurrent hfinishes.sum
              rw [hslot, hrelease]
              refine .release fun p hp => ?_
              rw [given_round hcurrent, Option.isSome_map]
              exact hfinishes.given p hp
            · left
              rw [combiner, resultsOf_released_of_ne hresults hslot]
              rfl
          · change (view rc ⟨sw, t.sent⟩ pkt.seq).cell pipe' = Cell.zero
            rw [hafter]
            rcases hpipe' with rfl | rfl
            · exact hfinishes.cell0
            · exact hfinishes.cell3

/-- **Refinement.** Along every run of a programmed channel from empty registers each slot takes the
steps of its combiner, and what is distributed are its sums, each once. -/
theorem run_refines {r : StateRepository} (hr : WellFormed r)
    (hknown : rc ∈ knownChannels r.getChannels) (hnonempty : rc.members ≠ [])
    (hports : ∀ p ∈ rc.members, p.switchPort ∈ frontPanelPorts)
    (haddresses : (rc.members.map fun p => (p.ip, p.fabricQp)).Nodup)
    (hok : onStRepoChannels r.getChannels (initialSetup rc.fabricMac) = .ok asic)
    {run : List (TrafficEvent × Traffic)} (hrun : Along (Step m asic rc) start run) :
    Along (Refines rc) start run ∧ ∀ x ∈ run, Aggregated rc x.2 := by
  have h := serving_of_initialSetup hr hknown hnonempty hports haddresses hok
  have hstep : ∀ t e t', Inv rc t → Step m asic rc t e t' → Inv rc t' := fun _ _ _ hinv hstep =>
    hinv.step h hstep
  exact ⟨hrun.imp hstep (fun _ _ _ hinv hstep => hinv.refines h hstep) (inv_start h),
    fun x hx => (hrun.invariant hstep (inv_start h) x hx).aggregated h⟩

end Traffic

/-! ### Two participants -/

namespace Traffic.TwoPipes

/-- A channel with a participant on either pipe. -/
def channel : CollectiveChannel where
  tag := 5
  fabricIp := 1
  fabricQpCommon := 1
  fabricMac := 1024
  aggUnit := 0
  participants := (OrderedMap.empty.insert 1 ⟨1, 10, 5, 257, 6, 0⟩).insert 2 ⟨2, 11, 5, 258, 6, 384⟩

def repository : StateRepository :=
  { StateRepository.initial 0 1 with channels := OrderedMap.empty.insert 5 channel }

def asic : Asic :=
  match onStRepoChannels repository.getChannels (initialSetup 1024) with
  | .ok asic => asic
  | .error _ => initialSetup 1024

/-- A packet of a participant whose words are all the same. -/
def packet (p : Participant) (seq : Nat) (word : BitVec 32) : Frame where
  ethernet := ⟨1024, p.mac, EtherType.ipv4⟩
  ipv4 := ⟨4, 5, 0, 300, 0, 2, 0, 64, Ipv4Protocol.udp, 0, p.ip, 1⟩
  udp := ⟨49152, 4791, 280, 0⟩
  roce := ⟨7, 0, 0, 0, 0xffff, 0, 0, p.fabricQp, 0, 0, BitVec.ofNat 24 seq⟩
  aggregate := fun _ => word
  roceAck := ⟨0, 0, 0⟩
  icrc := 0

def left : Participant := ⟨1, 10, 5, 257, 6, 0⟩

def right : Participant := ⟨2, 11, 5, 258, 6, 384⟩

def advance (t : Traffic) : TrafficEvent → Traffic
  | .arrive p seq f =>
      ⟨t.switch.process Matcher.first asic ⟨p.switchPort, f, seq⟩, sentWith t.sent p seq f⟩
  | .internal k =>
      match t.switch.inside[k]? with
      | some pkt =>
          ⟨{ t.switch with inside := t.switch.inside.take k ++ t.switch.inside.drop (k + 1) }.process
            Matcher.first asic pkt, t.sent⟩
      | none => t

/-- The events of a run in which no number is used twice. -/
def Possible (t : Traffic) : TrafficEvent → Prop
  | .arrive p seq f => p ∈ channel.members ∧ t.sent p seq = none ∧ seq < 256 ∧
      f = packet p seq (f.aggregate 0)
  | .internal k => k < t.switch.inside.length

instance (t : Traffic) : ∀ e, Decidable (Possible t e)
  | .arrive _ _ _ => inferInstanceAs (Decidable (_ ∧ _))
  | .internal _ => inferInstanceAs (Decidable (_ < _))

private theorem step_advance {t : Traffic} {e : TrafficEvent} (h : Possible t e) :
    Step Matcher.first asic channel t e (advance t e) := by
  cases e with
  | arrive p seq f =>
      obtain ⟨hp, hnone, hlt, hf⟩ := h
      refine .arrive ⟨hp, hnone, fun seq' heq => by omega⟩ ?_
      rw [hf]
      exact ⟨⟨rfl, rfl, rfl, rfl⟩, rfl, rfl, rfl, rfl, rfl⟩
  | internal k =>
      have hlt : k < t.switch.inside.length := h
      have hget : t.switch.inside[k]? = some t.switch.inside[k] := List.getElem?_eq_getElem hlt
      have hsplit : t.switch.inside =
          t.switch.inside.take k ++ t.switch.inside[k] :: t.switch.inside.drop (k + 1) := by
        rw [← List.drop_eq_getElem_cons hlt, List.take_append_drop]
      have hstep : Step Matcher.first asic channel t (.internal (t.switch.inside.take k).length) _ :=
        .internal hsplit
      rw [List.length_take_of_le hlt.le] at hstep
      rw [advance, hget]
      exact hstep

def events : List TrafficEvent :=
  [.arrive left 0 (packet left 0 3), .internal 0, .arrive right 0 (packet right 0 4), .internal 0,
    .internal 0]

theorem wellFormed_repository : WellFormed repository := by
  have hentries : ∀ e ∈ repository.channels.entries, e = (5, channel) := fun e he =>
    List.mem_singleton.1 he
  refine ⟨fun e he e' he' _ => ?_, fun e he e' he' _ => ?_, fun e he p hp _ => ?_⟩
  · rw [hentries e he, hentries e' he']
  · rw [hentries e he, hentries e' he']
  · rw [hentries e he] at hp ⊢
    revert p
    decide

theorem programs_asic :
    onStRepoChannels repository.getChannels (initialSetup channel.fabricMac) = .ok asic := by
  obtain ⟨asic', hok⟩ := @exists_onStRepoChannels_initialSetup repository.getChannels (by decide) 1024
  have hasic : asic = asic' := by
    rw [asic, hok]
  rw [hasic]
  exact hok

/-- Both packets are added, and their sum is distributed to the group of the channel. -/
theorem events_refine :
    (runOf advance start events).map (fun x => x.2.switch.inside.map Packet.port) =
        [[68], [448], [448], [452], []] ∧
      (runOf advance start events).map (fun x => x.2.switch.results.map fun r =>
        (r.seq, r.hdr.aggregate 0, r.mcastGrp)) = [[], [], [], [], [(0, 7, 16)]] ∧
      Along (Refines channel) start (runOf advance start events) ∧
      ∀ x ∈ runOf advance start events, Aggregated channel x.2 := by
  refine ⟨by decide +kernel, by decide +kernel,
    run_refines (m := Matcher.first) wellFormed_repository ?_ (by decide) (by decide) (by decide)
      programs_asic ?_⟩
  · exact List.mem_singleton.2 rfl
  · have hpossible : Along (fun t e _ => Possible t e) start (runOf advance start events) := by
      decide +kernel
    exact hpossible.of_runOf fun _ _ => step_advance

end Traffic.TwoPipes

end Mpitofino
