import Mpitofino.Library.Combiner
import Mpitofino.Library.Run
import Mpitofino.System.Stage

/-!
# Aggregation

The participants of a programmed channel send packets with sequence numbers, each of them no packet 256
numbers ahead of a result; the switch takes them in any order, and the packets inside it as well. Slot
by slot the switch is a combiner of rounds: the packets with one number modulo 256 are its values, and
the packets the switch distributes are its sums.
-/

namespace Mpitofino

open AsicDriver

/-- The switch, and the packets its participants sent to it. -/
structure Traffic where
  switch : Switch
  sent : Participant → Nat → Option Frame

inductive TrafficEvent where
  | arrive (p : Participant) (seq : Nat) (f : Frame)
  | internal (k : Nat)

namespace Traffic

def start : Traffic := ⟨Switch.initial, fun _ _ => none⟩

def Distributed (t : Traffic) (seq : Nat) : Prop := ∃ r ∈ t.switch.results, r.seq = seq

section Steps

variable (m : Matcher) (asic : Asic) (rc : CollectiveChannel)

/-- A participant may send a packet once, and not before the result 256 numbers behind it. -/
def MaySend (t : Traffic) (p : Participant) (seq : Nat) : Prop :=
  p ∈ rc.members ∧ t.sent p seq = none ∧ ∀ seq', seq' + 256 = seq → t.Distributed seq'

def sentWith (sent : Participant → Nat → Option Frame) (p : Participant) (seq : Nat) (f : Frame) :
    Participant → Nat → Option Frame :=
  Function.update sent p (Function.update (sent p) seq (some f))

inductive Step (t : Traffic) : TrafficEvent → Traffic → Prop where
  | arrive {p : Participant} {seq : Nat} {f : Frame} (hmay : MaySend rc t p seq)
      (hf : SentBy rc p seq f) :
      Step t (.arrive p seq f)
        ⟨t.switch.process m asic ⟨p.switchPort, f, seq⟩, sentWith t.sent p seq f⟩
  | internal {before after : List Packet} {pkt : Packet}
      (hinside : t.switch.inside = before ++ pkt :: after) :
      Step t (.internal before.length)
        ⟨{ t.switch with inside := before ++ after }.process m asic pkt, t.sent⟩

end Steps

/-! ### Slots -/

section Slots

variable (rc : CollectiveChannel) (t : Traffic)

def resultsOf (k : Nat) : List Result := t.switch.results.filter fun r => r.seq % 256 = k

/-- The sequence number a slot is used for. -/
def current (k : Nat) : Nat := 256 * (t.resultsOf k).length + k

def view (seq : Nat) : SlotView where
  cell pipe := (t.switch.regs pipe).cell (slotIndex rc seq)
  given p := t.sent p seq
  packets := t.switch.inside.filter fun pkt => pkt.seq % 256 = seq % 256

/-- The combiner a slot is. -/
def combiner (k : Nat) : Combiner Participant AggregateH where
  given p n := (t.sent p (256 * n + k)).map Frame.aggregate
  released := (t.resultsOf k).map fun r => r.hdr.aggregate

structure Inv : Prop where
  sentBy : ∀ p seq f, t.sent p seq = some f → p ∈ rc.members ∧ SentBy rc p seq f
  slots : ∀ k < 256, ∃ stage, AtStage rc (t.view rc (t.current k)) (t.current k) stage
  sound : ∀ k < 256, (t.combiner k).Sound rc.members
  rounds : ∀ k < 256, (t.resultsOf k).map Result.seq =
    (List.range (t.resultsOf k).length).map fun n => 256 * n + k
  origin : ∀ r ∈ t.switch.results, ∃ p f, t.sent p r.seq = some f ∧
    r = resultOf rc r.seq { f with aggregate := r.hdr.aggregate }

end Slots

variable {rc : CollectiveChannel} {t t' : Traffic}

theorem round_combiner (t : Traffic) (k : Nat) : (t.combiner k).round = (t.resultsOf k).length :=
  List.length_map ..

theorem Inv.distributed_iff (h : Inv rc t) {seq : Nat} :
    t.Distributed seq ↔ seq < t.current (seq % 256) := by
  have hk : seq % 256 < 256 := Nat.mod_lt _ (by decide)
  have hmem : t.Distributed seq ↔ seq ∈ (t.resultsOf (seq % 256)).map Result.seq := by
    rw [Distributed, List.mem_map]
    constructor
    · rintro ⟨r, hr, rfl⟩
      exact ⟨r, List.mem_filter.2 ⟨hr, decide_eq_true rfl⟩, rfl⟩
    · rintro ⟨r, hr, rfl⟩
      exact ⟨r, (List.mem_filter.1 hr).1, rfl⟩
  rw [hmem, h.rounds _ hk, List.mem_map, current]
  constructor
  · rintro ⟨n, hn, heq⟩
    have hn := List.mem_range.1 hn
    omega
  · intro hlt
    exact ⟨seq / 256, List.mem_range.2 (by omega), by omega⟩

theorem Inv.sent_next (h : Inv rc t) {seq : Nat} (hcurrent : t.current (seq % 256) = seq)
    (p : Participant) : t.sent p (seq + 256) = none := by
  have hk : seq % 256 < 256 := Nat.mod_lt _ (by decide)
  have hnone := (h.sound _ hk).future p ((t.combiner (seq % 256)).round + 1) (Nat.lt_succ_self _)
  rw [round_combiner] at hnone
  rw [current] at hcurrent
  rw [← Option.map_eq_none_iff, ← hnone]
  change _ = (t.sent p (256 * ((t.resultsOf (seq % 256)).length + 1) + seq % 256)).map _
  rw [show 256 * ((t.resultsOf (seq % 256)).length + 1) + seq % 256 = seq + 256 by omega]

/-- A packet is sent for the number its slot is used for. -/
theorem Inv.current_of_maySend (h : Inv rc t) {p : Participant} {seq : Nat}
    (hmay : MaySend rc t p seq) : t.current (seq % 256) = seq := by
  obtain ⟨hp, hnone, hwindow⟩ := hmay
  have hk : seq % 256 < 256 := Nat.mod_lt _ (by decide)
  have hle : (t.resultsOf (seq % 256)).length ≤ seq / 256 := by
    by_contra hlt
    have hsome := (h.sound _ hk).past (seq / 256) (by rw [round_combiner]; omega) p hp
    change ((t.sent p (256 * (seq / 256) + seq % 256)).map Frame.aggregate).isSome = true at hsome
    rw [Nat.div_add_mod, hnone] at hsome
    contradiction
  have hge : seq / 256 ≤ (t.resultsOf (seq % 256)).length := by
    by_cases hsmall : seq < 256
    · omega
    · have hlt := h.distributed_iff.1 (hwindow (seq - 256) (by omega))
      rw [show (seq - 256) % 256 = seq % 256 by omega, current] at hlt
      omega
  rw [current]
  omega

theorem view_of_slot {seq seq' : Nat} (hslot : seq' % 256 = seq % 256) :
    t.view rc seq' = { t.view rc seq with given := fun p => t.sent p seq' } := by
  rw [view, slotIndex_eq_iff.2 hslot, hslot, view]

/-- What the combiner of a slot was given in its round is what was sent for its sequence number. -/
theorem given_round {k seq : Nat} (hcurrent : t.current k = seq) (p : Participant) :
    (t.combiner k).given p (t.combiner k).round = (t.sent p seq).map Frame.aggregate := by
  rw [round_combiner, ← hcurrent]
  rfl

/-! ### What a pass leaves of the slots -/

section Touched

variable {regs : PipeId → Registers} {pipe : PipeId} {seq : Nat} {c : Cell}

theorem cell_update (seq' : Nat) (pipe' : PipeId) :
    (Function.update regs pipe ((regs pipe).setCell (slotIndex rc seq) c) pipe').cell
        (slotIndex rc seq') =
      if pipe' = pipe ∧ seq' % 256 = seq % 256 then c
      else (regs pipe').cell (slotIndex rc seq') := by
  by_cases hpipe : pipe' = pipe
  · rw [hpipe, Function.update_self]
    by_cases hslot : seq' % 256 = seq % 256
    · rw [if_pos ⟨rfl, hslot⟩, slotIndex_eq_iff.2 hslot, Registers.cell_setCell]
    · rw [if_neg fun h => hslot h.2,
        Registers.cell_setCell_of_ne _ _ fun heq => hslot (slotIndex_eq_iff.1 heq)]
  · rw [if_neg fun h => hpipe h.1, Function.update_of_ne hpipe]

variable (hregs : t'.switch.regs =
  Function.update t.switch.regs pipe ((t.switch.regs pipe).setCell (slotIndex rc seq) c))

include hregs

theorem view_of_other {seq' : Nat} (hne : seq' % 256 ≠ seq % 256)
    (hsent : ∀ p, t'.sent p seq' = t.sent p seq')
    (hinside : (t'.switch.inside.filter fun pkt => pkt.seq % 256 = seq' % 256) =
      t.switch.inside.filter fun pkt => pkt.seq % 256 = seq' % 256) :
    t'.view rc seq' = t.view rc seq' := by
  rw [view, view, hregs]
  congr 1
  · funext pipe'
    rw [cell_update, if_neg fun h => hne h.2]
  · funext p
    exact hsent p

theorem view_of_touched : t'.view rc seq = ⟨Function.update (t.view rc seq).cell pipe c,
    fun p => t'.sent p seq, t'.switch.inside.filter fun pkt => pkt.seq % 256 = seq % 256⟩ := by
  rw [view, hregs]
  congr 1
  funext pipe'
  rw [cell_update]
  by_cases hpipe : pipe' = pipe
  · rw [if_pos ⟨hpipe, rfl⟩, hpipe, Function.update_self]
  · rw [if_neg fun h => hpipe h.1, Function.update_of_ne hpipe]
    rfl

end Touched

/-! ### A packet arrives -/

section Sent

variable {sent : Participant → Nat → Option Frame} {p : Participant} {seq : Nat} {f : Frame}

theorem sentWith_apply (p' : Participant) (seq' : Nat) :
    sentWith sent p seq f p' seq' =
      if p' = p ∧ seq' = seq then some f else sent p' seq' := by
  rw [sentWith]
  by_cases hp : p' = p
  · subst hp
    rw [Function.update_self]
    by_cases hseq : seq' = seq
    · rw [hseq, Function.update_self, if_pos ⟨rfl, rfl⟩]
    · rw [Function.update_of_ne hseq, if_neg fun h => hseq h.2]
  · rw [Function.update_of_ne hp, if_neg fun h => hp h.1]

theorem combiner_give (hsent : t'.sent = sentWith t.sent p seq f)
    (hresults : t'.switch.results = t.switch.results) (hcurrent : t.current (seq % 256) = seq) :
    t'.combiner (seq % 256) = (t.combiner (seq % 256)).give p f.aggregate := by
  have hround : (t.combiner (seq % 256)).round = seq / 256 := by
    rw [current] at hcurrent
    rw [round_combiner]
    omega
  have hgiven : (t'.combiner (seq % 256)).given =
      ((t.combiner (seq % 256)).give p f.aggregate).given := by
    funext p' n
    change (t'.sent p' (256 * n + seq % 256)).map Frame.aggregate =
      Function.update (t.combiner (seq % 256)).given p (Function.update
        ((t.combiner (seq % 256)).given p) (t.combiner (seq % 256)).round (some f.aggregate)) p' n
    rw [hsent, sentWith_apply, hround]
    by_cases hp : p' = p
    · subst hp
      rw [Function.update_self]
      by_cases hn : n = seq / 256
      · rw [if_pos ⟨rfl, by omega⟩, hn, Function.update_self]
        rfl
      · rw [if_neg (by omega), Function.update_of_ne hn]
        rfl
    · rw [if_neg fun h => hp h.1, Function.update_of_ne hp]
      rfl
  have hreleased : (t'.combiner (seq % 256)).released = (t.combiner (seq % 256)).released := by
    rw [combiner, combiner, resultsOf, resultsOf, hresults]
  exact congrArg₂ Combiner.mk hgiven hreleased

theorem combiner_of_other (hsent : t'.sent = sentWith t.sent p seq f) {k : Nat}
    (hresults : t'.resultsOf k = t.resultsOf k) (hk : k < 256) (hne : k ≠ seq % 256) :
    t'.combiner k = t.combiner k := by
  rw [combiner, combiner, hresults, hsent]
  congr 1
  funext p' n
  rw [sentWith_apply, if_neg (by omega)]

end Sent

variable {channels : List CollectiveChannel} {m : Matcher} {asic : Asic}

theorem process_arrive (h : Serving channels asic rc) {p : Participant} {seq i : Nat} {f : Frame}
    (hp : (rc.onPipe (pipeOf p.switchPort))[i]? = some p) (hf : SentBy rc p seq f) (sw : Switch) :
    let c := ((sw.regs (pipeOf p.switchPort)).cell (slotIndex rc seq)).add (NodeBitmap.nodeAt i)
      f.aggregate
    sw.process m asic ⟨p.switchPort, f, seq⟩ =
      { regs := Function.update sw.regs (pipeOf p.switchPort)
          ((sw.regs (pipeOf p.switchPort)).setCell (slotIndex rc seq) c)
        inside := sw.inside ++
          if c.bitmap = NodeBitmap.fullAt (rc.contributions (pipeOf p.switchPort)) then
            [⟨recircPort (pipeOf p.switchPort), { f with aggregate := c.sumsA f.aggregate }, seq⟩]
          else []
        results := sw.results } := by
  have hmem := List.mem_of_getElem? hp
  obtain ⟨h64, h448, h452, hrecirc, hpipe⟩ :=
    frontPanel_ports _ (h.frontPanel p (mem_onPipe.1 hmem).1)
  exact h.process_add m sw hpipe (List.length_pos_of_mem hmem) h64 hrecirc hf
    (h.pick_participant m hp hf h448 h452)

theorem filter_append_same {inside new : List Packet} {seq : Nat}
    (hnew : ∀ pkt ∈ new, pkt.seq = seq) :
    ((inside ++ new).filter fun pkt => pkt.seq % 256 = seq % 256) =
      (inside.filter fun pkt => pkt.seq % 256 = seq % 256) ++ new := by
  have hall : (new.filter fun pkt => pkt.seq % 256 = seq % 256) = new :=
    List.filter_eq_self.2 fun pkt hpkt => by simp [hnew pkt hpkt]
  rw [List.filter_append, hall]

theorem filter_append_other {inside new : List Packet} {seq k : Nat}
    (hnew : ∀ pkt ∈ new, pkt.seq = seq) (hne : k ≠ seq % 256) :
    ((inside ++ new).filter fun pkt => pkt.seq % 256 = k) =
      inside.filter fun pkt => pkt.seq % 256 = k := by
  have hnone : (new.filter fun pkt => pkt.seq % 256 = k) = [] :=
    List.filter_eq_nil_iff.2 fun pkt hpkt => by simpa [hnew pkt hpkt] using hne.symm
  rw [List.filter_append, hnone, List.append_nil]

theorem view_arrive (h : Serving channels asic rc) {p : Participant} {seq i : Nat} {f : Frame}
    (hp : (rc.onPipe (pipeOf p.switchPort))[i]? = some p) (hf : SentBy rc p seq f) :
    view rc ⟨t.switch.process m asic ⟨p.switchPort, f, seq⟩, sentWith t.sent p seq f⟩ seq =
      (t.view rc seq).arrive rc p i seq f := by
  have hprocess := process_arrive (m := m) h hp hf t.switch
  rw [view_of_touched (congrArg Switch.regs hprocess)]
  have hgiven : (fun p' => sentWith t.sent p seq f p' seq) =
      Function.update (t.view rc seq).given p (some f) := by
    funext p'
    rw [sentWith_apply]
    by_cases hp' : p' = p
    · rw [if_pos ⟨hp', rfl⟩, hp', Function.update_self]
    · rw [if_neg fun h => hp' h.1, Function.update_of_ne hp']
      rfl
  rw [SlotView.arrive, SlotView.add]
  refine congrArg₂ _ hgiven ?_
  dsimp only
  rw [hprocess]
  refine (filter_append_same fun pkt hpkt => ?_).trans rfl
  split at hpkt
  · rw [List.mem_singleton.1 hpkt]
  · contradiction

theorem pipe_of_member (h : Serving channels asic rc) {p : Participant} (hp : p ∈ rc.members) :
    pipeOf p.switchPort = 0 ∨ pipeOf p.switchPort = 3 :=
  (frontPanel_ports _ (h.frontPanel p hp)).2.2.2.2

theorem contributions_le_64 (h : Serving channels asic rc) (pipe : PipeId) :
    rc.contributions pipe ≤ 64 :=
  contributions_le (h.programmed.fits rc h.known).room pipe

theorem exists_atStage_arrive (h : Serving channels asic rc) {v : SlotView} {seq i : Nat}
    {stage : Stage} {p : Participant} {f : Frame} (hstage : AtStage rc v seq stage)
    (hp : (rc.onPipe (pipeOf p.switchPort))[i]? = some p) (hnone : v.given p = none) :
    ∃ stage', AtStage rc (v.arrive rc p i seq f) seq stage' := by
  have hmem := (mem_onPipe.1 (List.mem_of_getElem? hp)).1
  rcases pipe_of_member h hmem with hpipe | hpipe <;> rw [hpipe] at hp
  · obtain ⟨-, ⟨-, hnext⟩ | ⟨-, hnext⟩⟩ :=
      hstage.arrive0 h.nodup_members (contributions_le_64 h) hp hnone
    · exact ⟨_, hnext⟩
    · exact ⟨_, hnext⟩
  · rcases hstage.arrive3 h.nodup_members (contributions_le_64 h) hp hnone with ⟨-, -, hnext⟩ |
      ⟨-, ⟨-, hnext⟩ | ⟨-, hnext⟩⟩
    · exact ⟨_, hnext⟩
    · exact ⟨_, hnext⟩
    · exact ⟨_, hnext⟩

theorem Inv.arrive (h : Serving channels asic rc) (hinv : Inv rc t) {p : Participant} {seq : Nat}
    {f : Frame} (hmay : MaySend rc t p seq) (hf : SentBy rc p seq f) :
    Inv rc ⟨t.switch.process m asic ⟨p.switchPort, f, seq⟩, sentWith t.sent p seq f⟩ := by
  obtain ⟨i, hp⟩ := List.mem_iff_getElem?.1 (mem_onPipe.2 ⟨hmay.1, rfl⟩)
  have hprocess := process_arrive (m := m) h hp hf t.switch
  have hcurrent := hinv.current_of_maySend hmay
  generalize ht' : (⟨t.switch.process m asic ⟨p.switchPort, f, seq⟩, sentWith t.sent p seq f⟩ :
    Traffic) = t'
  have hsent : t'.sent = sentWith t.sent p seq f := by rw [← ht']
  have hresults : t'.switch.results = t.switch.results := by rw [← ht', hprocess]
  have hresultsOf : ∀ k, t'.resultsOf k = t.resultsOf k := fun k => by
    rw [resultsOf, hresults, resultsOf]
  have hcurrents : ∀ k, t'.current k = t.current k := fun k => by
    rw [current, hresultsOf, current]
  refine ⟨fun p' seq' f' hf' => ?_, fun k hk => ?_, fun k hk => ?_, fun k hk => ?_, fun r hr => ?_⟩
  · rw [hsent, sentWith_apply] at hf'
    split at hf'
    · rename_i heq
      obtain rfl := Option.some.inj hf'
      rw [heq.1, heq.2]
      exact ⟨hmay.1, hf⟩
    · exact hinv.sentBy p' seq' f' hf'
  · rw [hcurrents]
    obtain ⟨stage, hstage⟩ := hinv.slots k hk
    by_cases hslot : k = seq % 256
    · subst hslot
      rw [hcurrent] at hstage ⊢
      rw [← ht', view_arrive h hp hf]
      exact exists_atStage_arrive h hstage hp hmay.2.1
    · have hclass : t.current k % 256 = k := by
        rw [current]
        omega
      have hview : t'.view rc (t.current k) = t.view rc (t.current k) := by
        refine view_of_other (by rw [← ht', hprocess]) (by rwa [hclass]) (fun p' => ?_) ?_
        · rw [hsent, sentWith_apply, if_neg]
          rintro ⟨-, heq⟩
          exact hslot (by rw [← hclass, heq])
        · rw [← ht', hprocess, hclass]
          refine filter_append_other (fun pkt hpkt => ?_) hslot
          split at hpkt
          · rw [List.mem_singleton.1 hpkt]
          · contradiction
      rw [hview]
      exact ⟨stage, hstage⟩
  · by_cases hslot : k = seq % 256
    · subst hslot
      rw [combiner_give hsent hresults hcurrent]
      exact (hinv.sound _ hk).give p f.aggregate
    · rw [combiner_of_other hsent (hresultsOf k) hk hslot]
      exact hinv.sound k hk
  · rw [hresultsOf]
    exact hinv.rounds k hk
  · rw [hresults] at hr
    obtain ⟨p', f', hf', horigin⟩ := hinv.origin r hr
    refine ⟨p', f', ?_, horigin⟩
    rw [hsent, sentWith_apply, if_neg]
    · exact hf'
    · rintro ⟨rfl, heq⟩
      rw [heq, hmay.2.1] at hf'
      contradiction

/-! ### A packet inside the switch goes on -/

/-- The slot's packet is the one that is taken. -/
theorem eq_of_filter_eq {before after : List Packet} {pkt x : Packet} {k : Nat}
    (hk : pkt.seq % 256 = k)
    (h : ((before ++ pkt :: after).filter fun x => x.seq % 256 = k) = [x]) :
    pkt = x ∧ ((before ++ after).filter fun x => x.seq % 256 = k) = [] := by
  have htaken : ((pkt :: after).filter fun x => x.seq % 256 = k) =
      pkt :: after.filter fun x => x.seq % 256 = k := by
    simp [hk]
  rw [List.filter_append, htaken, List.append_eq_singleton_iff] at h
  rcases h with ⟨hbefore, hrest⟩ | ⟨-, hrest⟩
  · obtain ⟨hpkt, hafter⟩ := List.cons.inj hrest
    exact ⟨hpkt, by rw [List.filter_append, hbefore, hafter]; rfl⟩
  · contradiction

theorem filter_taken_other {before after : List Packet} {pkt : Packet} {k : Nat}
    (hne : k ≠ pkt.seq % 256) :
    ((before ++ after).filter fun x => x.seq % 256 = k) =
      (before ++ pkt :: after).filter fun x => x.seq % 256 = k := by
  simp [hne.symm]

theorem Inv.stage_of_inside (hinv : Inv rc t) {before after : List Packet} {pkt : Packet}
    (hinside : t.switch.inside = before ++ pkt :: after) :
    ∃ stage seq, t.current (pkt.seq % 256) = seq ∧ AtStage rc (t.view rc seq) seq stage ∧
      (∀ x, (t.view rc seq).packets = [x] → pkt = x ∧
        ((before ++ after).filter fun y => y.seq % 256 = seq % 256) = []) ∧
      (t.view rc seq).packets ≠ [] := by
  have hk : pkt.seq % 256 < 256 := Nat.mod_lt _ (by decide)
  obtain ⟨stage, hstage⟩ := hinv.slots _ hk
  have hclass : t.current (pkt.seq % 256) % 256 = pkt.seq % 256 := by
    rw [current]
    omega
  have hpackets : (t.view rc (t.current (pkt.seq % 256))).packets =
      (before ++ pkt :: after).filter fun x => x.seq % 256 = pkt.seq % 256 := by
    change t.switch.inside.filter (fun x => x.seq % 256 = t.current (pkt.seq % 256) % 256) = _
    rw [hclass, hinside]
  refine ⟨stage, _, rfl, hstage, fun x hx => ?_, fun hempty => ?_⟩
  · rw [hpackets] at hx
    rw [hclass]
    exact eq_of_filter_eq rfl hx
  · have hmem : pkt ∈ (before ++ pkt :: after).filter fun x => x.seq % 256 = pkt.seq % 256 :=
      List.mem_filter.2 ⟨List.mem_append_right _ List.mem_cons_self, decide_eq_true rfl⟩
    rw [← hpackets, hempty] at hmem
    contradiction

/-- What becomes of a packet inside the switch: pipe 0 hands its sum on, pipe 3 takes it, or the sum is
distributed. -/
inductive Passed (rc : CollectiveChannel) (t : Traffic) (rest : List Packet) (pkt : Packet)
    (t' : Traffic) : Prop where
  | handed (f : Frame) (hport : pkt.port = 68)
      (hbefore : AtStage rc (t.view rc pkt.seq) pkt.seq .clearing0)
      (hinside : t'.switch.inside = rest ++ [⟨448, f, pkt.seq⟩])
      (hresults : t'.switch.results = t.switch.results)
      (hafter : AtStage rc (t'.view rc pkt.seq) pkt.seq .crossing)
  | taken (hport : pkt.port = 448) (hbefore : AtStage rc (t.view rc pkt.seq) pkt.seq .crossing)
      (hresults : t'.switch.results = t.switch.results)
      (hafter : (∃ f, t'.switch.inside = rest ++ [⟨452, f, pkt.seq⟩] ∧
          AtStage rc (t'.view rc pkt.seq) pkt.seq .clearing3) ∨
        (t'.switch.inside = rest ∧ AtStage rc (t'.view rc pkt.seq) pkt.seq .collecting3))
  | distributed (pipe : PipeId) (p : Participant) (f : Frame) (sum : AggregateH)
      (hport : pkt.port = recircPort pipe) (hpipe : pipe = 0 ∧ rc.count 3 = 0 ∨ pipe = 3)
      (hf : t.sent p pkt.seq = some f) (hfinishes : Finishes rc (t.view rc pkt.seq) pipe sum)
      (hinside : t'.switch.inside = rest)
      (hresults : t'.switch.results =
        t.switch.results ++ [resultOf rc pkt.seq { f with aggregate := sum }])
      (hafter : t'.view rc pkt.seq = (t.view rc pkt.seq).clear pipe [])

section Rest

variable {sw : Switch} {pipe : PipeId} {seq : Nat} {rest new : List Packet}
  (hinside : sw.inside = rest ++ new)
  (hrest : (rest.filter fun pkt => pkt.seq % 256 = seq % 256) = [])
  (hnew : ∀ pkt ∈ new, pkt.seq = seq)

include hinside hrest hnew

theorem view_clear (hregs : sw.regs = Function.update t.switch.regs pipe
      ((t.switch.regs pipe).setCell (slotIndex rc seq) Cell.zero)) :
    view rc ⟨sw, t.sent⟩ seq = (t.view rc seq).clear pipe new := by
  rw [view_of_touched hregs, hinside, filter_append_same hnew, hrest]
  rfl

theorem view_add {i : Nat} {f : Frame} (hregs : sw.regs =
      Function.update t.switch.regs pipe ((t.switch.regs pipe).setCell (slotIndex rc seq)
        (((t.switch.regs pipe).cell (slotIndex rc seq)).add (NodeBitmap.nodeAt i) f.aggregate)))
    (hadded : new = ({ t.view rc seq with packets := [] }.add rc pipe i seq f).packets) :
    view rc ⟨sw, t.sent⟩ seq = { t.view rc seq with packets := [] }.add rc pipe i seq f := by
  rw [view_of_touched hregs, hinside, filter_append_same hnew, hrest, hadded]
  rfl

end Rest

theorem Inv.passed (h : Serving channels asic rc) (hinv : Inv rc t) {before after : List Packet}
    {pkt : Packet} (hinside : t.switch.inside = before ++ pkt :: after) :
    t.current (pkt.seq % 256) = pkt.seq ∧
      (∃ pipe c, ({ t.switch with inside := before ++ after }.process m asic pkt).regs =
        Function.update t.switch.regs pipe
          ((t.switch.regs pipe).setCell (slotIndex rc pkt.seq) c)) ∧
      Passed rc t (before ++ after) pkt
        ⟨{ t.switch with inside := before ++ after }.process m asic pkt, t.sent⟩ := by
  obtain ⟨stage, seq, hcurrent, hstage, hpkt, hnonempty⟩ := hinv.stage_of_inside hinside
  have hports := fun p hp => pipe_of_member h (p := p) hp
  cases stage with
  | collecting0 => exact absurd hstage.token hnonempty
  | collecting3 => exact absurd hstage.token hnonempty
  | clearing0 =>
      obtain ⟨p, f, agg, hp, hf, hpackets, hsum, hcross⟩ := hstage.clear0
      obtain ⟨rfl, hrest⟩ := hpkt _ hpackets
      have hprocess := h.process_clear m { t.switch with inside := before ++ after } (Or.inl rfl)
        (List.length_pos_of_mem hp) (Or.inl hp) ((hinv.sentBy p seq f hf).2.withAggregate agg)
      have hsumsB : ((t.switch.regs 0).cell (slotIndex rc seq)).sumsB agg =
          sum0 rc (t.view rc seq).given := hsum
      dsimp only at hprocess
      rw [hsumsB] at hprocess
      refine ⟨hcurrent, ⟨_, _, congrArg Switch.regs hprocess⟩, ?_⟩
      rw [hprocess]
      by_cases hconnected : rc.connected = true
      · have hchains : chains rc 0 := ⟨hconnected, by decide⟩
        rw [if_pos hchains, if_pos hchains]
        refine .handed { f with aggregate := sum0 rc (t.view rc seq).given } rfl hstage rfl
          (List.append_nil _) ?_
        refine Eq.mpr (congrArg (AtStage rc · seq .crossing) ?_) (hcross hconnected)
        exact view_clear rfl hrest (List.forall_mem_singleton.2 rfl) rfl
      · have hchains : ¬ chains rc 0 := fun h => hconnected h.1
        rw [if_neg hchains, if_neg hchains]
        have hcount : rc.count 3 = 0 := by
          by_contra hpos
          exact hconnected (connected_of_count (List.length_pos_of_mem hp)
            (Nat.pos_of_ne_zero hpos))
        exact .distributed 0 p f _ rfl (Or.inl ⟨rfl, hcount⟩) hf
          (hstage.finishes0 hports hconnected) (List.append_nil _) rfl
          (view_clear rfl hrest (List.forall_mem_nil _) rfl)
  | crossing =>
      obtain ⟨p, f, hp, hf, hpackets, hnext⟩ := hstage.cross (contributions_le_64 h)
      obtain ⟨rfl, hrest⟩ := hpkt _ hpackets
      have hconnected := hstage.token.1
      have hsentBy := (hinv.sentBy p seq f hf).2.withAggregate (sum0 rc (t.view rc seq).given)
      have hprocess := h.process_add m { t.switch with inside := before ++ after }
        (show pipeOf 448 = 0 ∨ pipeOf 448 = 3 from Or.inr rfl) (count_of_connected hconnected).2
        (by decide) rfl hsentBy (h.pick_crossing m hp hsentBy hconnected)
      rw [show pipeOf 448 = (3 : PipeId) from rfl] at hprocess
      dsimp only at hprocess
      refine ⟨hcurrent, ⟨_, _, congrArg Switch.regs hprocess⟩, ?_⟩
      generalize hv : { t.view rc seq with packets := [] }.add rc 3 (rc.count 3) seq
        { f with aggregate := sum0 rc (t.view rc seq).given } = v at hnext
      have hpackets' := (congrArg SlotView.packets hv).symm.trans (SlotView.packets_add rfl)
      generalize Switch.process m asic
        ⟨448, { f with aggregate := sum0 rc (t.view rc seq).given }, seq⟩
        ⟨t.switch.regs, before ++ after, t.switch.results⟩ = sw at hprocess ⊢
      have hview : view rc ⟨sw, t.sent⟩ seq = v := by
        rw [← hv]
        refine view_add (congrArg Switch.inside hprocess) hrest (fun x hx => ?_)
          (congrArg Switch.regs hprocess) ?_
        · split at hx
          · rw [List.mem_singleton.1 hx]
          · contradiction
        · rw [SlotView.packets_add rfl]
          rfl
      have hresults : sw.results = t.switch.results := by rw [hprocess]
      refine .taken rfl hstage hresults ?_
      rcases hnext with ⟨-, hnext⟩ | ⟨hempty, hnext⟩
      · obtain ⟨-, p', f', agg, -, -, hrecirculated, -⟩ := hnext.token
        refine Or.inl ⟨{ f' with aggregate := agg }, (congrArg Switch.inside hprocess).trans ?_,
          hview.symm ▸ hnext⟩
        exact congrArg (before ++ after ++ ·) (hpackets'.symm.trans hrecirculated)
      · refine Or.inr ⟨(congrArg Switch.inside hprocess).trans ?_, hview.symm ▸ hnext⟩
        exact (congrArg (before ++ after ++ ·) (hpackets'.symm.trans hempty)).trans
          (List.append_nil _)
  | clearing3 =>
      obtain ⟨hcount, p, f, agg, hp, hf, hpackets, hsum⟩ := hstage.clear3
      obtain ⟨rfl, hrest⟩ := hpkt _ hpackets
      have hprocess := h.process_clear m { t.switch with inside := before ++ after } (Or.inr rfl)
        hcount (hp.imp_right fun hp => ⟨rfl, hp⟩)
        ((hinv.sentBy p seq f hf).2.withAggregate agg)
      have hsumsB : ((t.switch.regs 3).cell (slotIndex rc seq)).sumsB agg =
          total (Stage.held3 rc (t.view rc seq).given .clearing3) := hsum
      have hchains : ¬ chains rc 3 := fun h => h.2 rfl
      dsimp only at hprocess
      rw [hsumsB, if_neg hchains, if_neg hchains] at hprocess
      refine ⟨hcurrent, ⟨_, _, congrArg Switch.regs hprocess⟩, ?_⟩
      rw [hprocess]
      exact .distributed 3 p f _ rfl (Or.inr rfl) hf (hstage.finishes3 hports) (List.append_nil _) rfl
        (view_clear rfl hrest (List.forall_mem_nil _) rfl)

theorem Passed.inside {rest : List Packet} {pkt : Packet} (h : Passed rc t rest pkt t') :
    ∃ new, t'.switch.inside = rest ++ new ∧ ∀ x ∈ new, x.seq = pkt.seq := by
  cases h with
  | handed f hport hbefore hinside hresults hafter =>
      exact ⟨_, hinside, List.forall_mem_singleton.2 rfl⟩
  | taken hport hbefore hresults hafter =>
      rcases hafter with ⟨f, hinside, -⟩ | ⟨hinside, -⟩
      · exact ⟨_, hinside, List.forall_mem_singleton.2 rfl⟩
      · exact ⟨[], hinside.trans (List.append_nil _).symm, List.forall_mem_nil _⟩
  | distributed pipe p f sum hport hpipe hf hfinishes hinside hresults hafter =>
      exact ⟨[], hinside.trans (List.append_nil _).symm, List.forall_mem_nil _⟩

section Released

variable {r : Result} (hresults : t'.switch.results = t.switch.results ++ [r])
  (hsent : t'.sent = t.sent)

include hresults

theorem resultsOf_released : t'.resultsOf (r.seq % 256) = t.resultsOf (r.seq % 256) ++ [r] := by
  rw [resultsOf, hresults, List.filter_append, resultsOf]
  congr 1
  exact List.filter_cons_of_pos (decide_eq_true rfl)

theorem resultsOf_released_of_ne {k : Nat} (hne : k ≠ r.seq % 256) :
    t'.resultsOf k = t.resultsOf k := by
  rw [resultsOf, hresults, resultsOf]
  simp [hne.symm]

theorem current_released (hcurrent : t.current (r.seq % 256) = r.seq) :
    t'.current (r.seq % 256) = r.seq + 256 := by
  rw [current] at hcurrent
  rw [current, resultsOf_released hresults, List.length_append, List.length_singleton]
  omega

include hsent

/-- The sum that is distributed is the one the combiner releases. -/
theorem combiner_release (hcurrent : t.current (r.seq % 256) = r.seq)
    (hsum : r.hdr.aggregate = (rc.members.map (wordsOf fun p => t.sent p r.seq)).sum) :
    t'.combiner (r.seq % 256) = (t.combiner (r.seq % 256)).release rc.members := by
  have hsumOf : (t.combiner (r.seq % 256)).sumOf rc.members (t.combiner (r.seq % 256)).round =
      r.hdr.aggregate := by
    rw [hsum, Combiner.sumOf, round_combiner]
    rw [current] at hcurrent
    refine congrArg List.sum (List.map_congr_left fun p _ => ?_)
    change ((t.sent p (256 * (t.resultsOf (r.seq % 256)).length + r.seq % 256)).map
      Frame.aggregate).getD 0 = _
    rw [hcurrent]
    rfl
  rw [Combiner.release, hsumOf, combiner, resultsOf_released hresults, hsent, List.map_append]
  rfl

end Released

theorem Inv.of_results (hinv : Inv rc t) {seq : Nat} (hsent : t'.sent = t.sent)
    (hresults : t'.switch.results = t.switch.results) (hcurrent : t.current (seq % 256) = seq)
    (hothers : ∀ seq', seq' % 256 ≠ seq % 256 → t'.view rc seq' = t.view rc seq')
    (hstage : ∃ stage, AtStage rc (t'.view rc seq) seq stage) : Inv rc t' := by
  have hresultsOf : ∀ k, t'.resultsOf k = t.resultsOf k := fun k => by
    rw [resultsOf, hresults, resultsOf]
  have hcombiner : ∀ k, t'.combiner k = t.combiner k := fun k => by
    rw [combiner, hresultsOf, hsent, combiner]
  refine ⟨fun p seq' f hf => ?_, fun k hk => ?_, fun k hk => ?_, fun k hk => ?_, fun r hr => ?_⟩
  · rw [hsent] at hf
    exact hinv.sentBy p seq' f hf
  · rw [current, hresultsOf, ← current]
    by_cases hslot : k = seq % 256
    · rw [hslot, hcurrent]
      exact hstage
    · rw [hothers _ (by rw [current]; omega)]
      exact hinv.slots k hk
  · rw [hcombiner]
    exact hinv.sound k hk
  · rw [hresultsOf]
    exact hinv.rounds k hk
  · rw [hresults] at hr
    rw [hsent]
    exact hinv.origin r hr

theorem Inv.internal (h : Serving channels asic rc) (hinv : Inv rc t) {before after : List Packet}
    {pkt : Packet} (hinside : t.switch.inside = before ++ pkt :: after) :
    Inv rc ⟨{ t.switch with inside := before ++ after }.process m asic pkt, t.sent⟩ := by
  obtain ⟨hcurrent, ⟨pipe', c, hregs⟩, hpassed⟩ := hinv.passed (m := m) h hinside
  have hports := fun p hp => pipe_of_member h (p := p) hp
  generalize { t.switch with inside := before ++ after }.process m asic pkt = sw at hregs hpassed ⊢
  have hk' : pkt.seq % 256 < 256 := Nat.mod_lt _ (by decide)
  have hothers : ∀ seq', seq' % 256 ≠ pkt.seq % 256 →
      view rc ⟨sw, t.sent⟩ seq' = t.view rc seq' := by
    intro seq' hne
    obtain ⟨new, hnew, hseq⟩ := hpassed.inside
    refine view_of_other hregs hne (fun p => rfl) ?_
    rw [hnew, filter_append_other hseq hne, filter_taken_other hne, hinside]
  cases hpassed with
  | handed f hport hbefore hinside' hresults hafter =>
      exact hinv.of_results rfl hresults hcurrent hothers ⟨_, hafter⟩
  | taken hport hbefore hresults hafter =>
      refine hinv.of_results rfl hresults hcurrent hothers ?_
      rcases hafter with ⟨f, -, hafter⟩ | ⟨-, hafter⟩
      · exact ⟨_, hafter⟩
      · exact ⟨_, hafter⟩
  | distributed pipe p f sum hport hpipe hf hfinishes hinside' hresults hafter =>
      have hcombiner : combiner ⟨sw, t.sent⟩ (pkt.seq % 256) =
          (t.combiner (pkt.seq % 256)).release rc.members :=
        combiner_release hresults rfl hcurrent hfinishes.sum
      have hround := hinv.rounds _ hk'
      refine ⟨hinv.sentBy, fun k hk => ?_, fun k hk => ?_, fun k hk => ?_, fun r hr => ?_⟩
      · by_cases hslot : k = pkt.seq % 256
        · subst hslot
          refine ⟨firstStage rc, ?_⟩
          have hnext : current ⟨sw, t.sent⟩ (pkt.seq % 256) = pkt.seq + 256 :=
            current_released hresults hcurrent
          have hgiven : ∀ p ∈ rc.members, t.sent p (pkt.seq + 256) = none := fun p _ =>
            hinv.sent_next hcurrent p
          rw [hnext, view_of_slot (Nat.add_mod_right pkt.seq 256), hafter]
          refine atStage_first hports h.nonempty ?_ ?_ hgiven rfl _
          · exact hfinishes.cell0
          · exact hfinishes.cell3
        · rw [current, resultsOf_released_of_ne hresults hslot, ← current,
            hothers _ (by rw [current]; omega)]
          exact hinv.slots k hk
      · by_cases hslot : k = pkt.seq % 256
        · rw [hslot]
          refine Eq.mpr (congrArg (Combiner.Sound rc.members) hcombiner)
            ((hinv.sound _ hk').release fun p hp => ?_)
          rw [given_round hcurrent, Option.isSome_map]
          exact hfinishes.given p hp
        · rw [combiner, resultsOf_released_of_ne hresults hslot]
          exact hinv.sound k hk
      · by_cases hslot : k = pkt.seq % 256
        · have hreleased : resultsOf ⟨sw, t.sent⟩ (pkt.seq % 256) =
              t.resultsOf (pkt.seq % 256) ++ [_] :=
            resultsOf_released hresults
          rw [hslot, hreleased, List.map_append, hround, List.length_append,
            List.length_singleton, List.range_succ, List.map_append]
          rw [current] at hcurrent
          exact congrArg (_ ++ [·]) hcurrent.symm
        · rw [resultsOf_released_of_ne hresults hslot]
          exact hinv.rounds k hk
      · rw [hresults] at hr
        rcases List.mem_append.1 hr with hr | hr
        · exact hinv.origin r hr
        · rw [List.mem_singleton.1 hr]
          exact ⟨p, f, hf, rfl⟩

end Traffic

end Mpitofino
