import Mathlib.Data.List.Nodup
import Mpitofino.System.Refinement

/-!
# The order of the results

Where links and ports keep the order of packets, the numbers go through the stages in order: no number
is ahead of a smaller one. So the packets at a port inside the switch are sorted, and the switch
distributes the numbers one after another.
-/

namespace Mpitofino

open AsicDriver

/-- How far a stage is. -/
def Stage.rank : Stage → Nat
  | .collecting0 => 0
  | .clearing0 => 1
  | .crossing => 2
  | .collecting3 => 3
  | .clearing3 => 4

instance {n : Nat} (input : Fin n → Option AggregateH) : Decidable (Complete input) :=
  inferInstanceAs (Decidable (∀ _, _))

namespace Traffic

def InOrder (t : Traffic) : TrafficEvent → Prop
  | .arrive p seq _ => ∀ seq' < seq, (t.sent p seq').isSome
  | .internal k => ∀ pkt, t.switch.inside[k]? = some pkt →
      ∀ x ∈ t.switch.inside.take k, x.port ≠ pkt.port

section Place

variable (t : Traffic) (rc : CollectiveChannel) (seq : Nat)

instance : Decidable (t.Distributed seq) := inferInstanceAs (Decidable (∃ r ∈ _, _))

def Inside (port : PortId) : Prop := ∃ pkt ∈ t.switch.inside, pkt.seq = seq ∧ pkt.port = port

instance (port : PortId) : Decidable (t.Inside seq port) := inferInstanceAs (Decidable (∃ pkt ∈ _, _))

/-- The stage of a number, by where its packet is. -/
def stageOf : Stage :=
  if t.Inside seq 68 then .clearing0
  else if t.Inside seq 448 then .crossing
  else if t.Inside seq 452 then .clearing3
  else if Complete (contributed rc 0 (fun p => t.sent p seq) none) then .collecting3
  else .collecting0

def place : Nat := if t.Distributed seq then 5 else (t.stageOf rc seq).rank

end Place

/-- What holds between two events where the order is kept. -/
structure Ordered (rc : CollectiveChannel) (t : Traffic) : Prop where
  sent : ∀ p seq, (t.sent p seq).isSome → ∀ seq' < seq, (t.sent p seq').isSome
  places : Antitone (t.place rc)
  queues : t.switch.inside.Pairwise fun x y => x.port = y.port → x.seq < y.seq
  results : t.switch.results.map Result.seq = List.range t.switch.results.length

variable {rc : CollectiveChannel} {t t' : Traffic} {seq : Nat}

/-! ### Where a number is -/

theorem inside_iff {port : PortId} : t.Inside seq port ↔
    ∃ pkt ∈ (t.view rc seq).packets, pkt.seq = seq ∧ pkt.port = port := by
  constructor
  · rintro ⟨pkt, hpkt, rfl, hport⟩
    exact ⟨pkt, List.mem_filter.2 ⟨hpkt, decide_eq_true rfl⟩, rfl, hport⟩
  · rintro ⟨pkt, hpkt, hseq, hport⟩
    exact ⟨pkt, (List.mem_filter.1 hpkt).1, hseq, hport⟩

theorem inside_iff_of_carries {port port' : PortId} {from' : Participant → Prop}
    {words : AggregateH → Prop} (h : Carries (t.view rc seq) seq port from' words) :
    t.Inside seq port' ↔ port' = port := by
  obtain ⟨p, f, agg, -, -, hpackets, -⟩ := h
  rw [@inside_iff rc t seq, hpackets]
  constructor
  · rintro ⟨pkt, hpkt, -, rfl⟩
    rw [List.mem_singleton.1 hpkt]
  · rintro rfl
    exact ⟨_, List.mem_singleton_self _, rfl, rfl⟩

theorem not_inside_of_empty {port : PortId} (h : (t.view rc seq).packets = []) :
    ¬ t.Inside seq port := by
  rw [@inside_iff rc t seq, h]
  rintro ⟨pkt, hpkt, -⟩
  contradiction

theorem stageOf_eq {stage : Stage} (h : AtStage rc (t.view rc seq) seq stage) :
    t.stageOf rc seq = stage := by
  have hprogress : stage = .collecting0 ↔
      ¬ Complete (contributed rc 0 (fun p => t.sent p seq) none) := h.progress0
  have htoken := h.token
  cases stage with
  | collecting0 =>
      simp only [stageOf, not_inside_of_empty htoken, if_false, if_neg (hprogress.1 rfl)]
  | clearing0 =>
      rw [stageOf, if_pos ((inside_iff_of_carries htoken).2 rfl)]
  | crossing =>
      have hinside := fun port => @inside_iff_of_carries rc t seq 448 port _ _ htoken.2
      rw [stageOf, if_neg (mt (hinside 68).1 (by decide)), if_pos ((hinside 448).2 rfl)]
  | collecting3 =>
      have hcomplete := not_not.1 (hprogress.not.1 nofun)
      simp only [stageOf, not_inside_of_empty htoken, if_false, if_pos hcomplete]
  | clearing3 =>
      have hinside := fun port => @inside_iff_of_carries rc t seq 452 port _ _ htoken.2
      rw [stageOf, if_neg (mt (hinside 68).1 (by decide)), if_neg (mt (hinside 448).1 (by decide)),
        if_pos ((hinside 452).2 rfl)]

theorem place_of_distributed (h : t.Distributed seq) : t.place rc seq = 5 := if_pos h

theorem place_of_stage {stage : Stage} (h : ¬ t.Distributed seq)
    (hstage : AtStage rc (t.view rc seq) seq stage) : t.place rc seq = stage.rank := by
  rw [place, if_neg h, stageOf_eq hstage]

theorem place_congr (hresults : t'.Distributed seq ↔ t.Distributed seq)
    (hinside : ∀ port, t'.Inside seq port ↔ t.Inside seq port)
    (hsent : ∀ p, t'.sent p seq = t.sent p seq) : t'.place rc seq = t.place rc seq := by
  simp only [place, stageOf, hresults, hinside, hsent]

/-! ### How far the numbers are -/

/-- How far a number is whose packet is at a port. -/
def portRank (port : PortId) : Nat := if port = 68 then 1 else if port = 448 then 2 else 4

theorem portRank_le (port : PortId) : portRank port ≤ 4 := by
  rw [portRank]
  split_ifs <;> decide

theorem packet_of_stage {v : SlotView} {stage : Stage} (h : AtStage rc v seq stage)
    (hnonempty : v.packets ≠ []) :
    ∃ pkt, v.packets = [pkt] ∧ pkt.seq = seq ∧ portRank pkt.port = stage.rank ∧
      (pkt.port = 68 ∨ pkt.port = 448 ∨ pkt.port = 452) := by
  have htoken := h.token
  cases stage with
  | collecting0 | collecting3 => exact absurd htoken hnonempty
  | clearing0 =>
      obtain ⟨p, f, agg, -, -, hpackets, -⟩ := htoken
      exact ⟨_, hpackets, rfl, rfl, Or.inl rfl⟩
  | crossing =>
      obtain ⟨-, p, f, agg, -, -, hpackets, -⟩ := htoken
      exact ⟨_, hpackets, rfl, rfl, Or.inr (Or.inl rfl)⟩
  | clearing3 =>
      obtain ⟨-, p, f, agg, -, -, hpackets, -⟩ := htoken
      exact ⟨_, hpackets, rfl, rfl, Or.inr (Or.inr rfl)⟩

section Places

variable (hinv : Inv rc t)

include hinv

theorem Inv.stage_or_distributed {p : Participant} (hsent : (t.sent p seq).isSome) :
    t.Distributed seq ∨ ∃ stage, AtStage rc (t.view rc seq) seq stage ∧ t.place rc seq = stage.rank := by
  by_cases hdistributed : t.Distributed seq
  · exact Or.inl hdistributed
  · right
    have heq : t.current (seq % 256) = seq :=
      Nat.le_antisymm (Nat.le_of_not_lt fun hlt => hdistributed (hinv.distributed_iff.2 hlt))
        (hinv.le_current hsent)
    obtain ⟨stage, hstage⟩ := hinv.slots _ (Nat.mod_lt seq (by decide))
    rw [heq] at hstage
    exact ⟨stage, hstage, place_of_stage hdistributed hstage⟩

theorem Inv.packet_inside {pkt : Packet} (hpkt : pkt ∈ t.switch.inside) :
    (pkt.port = 68 ∨ pkt.port = 448 ∨ pkt.port = 452) ∧
      t.place rc pkt.seq = portRank pkt.port ∧ (t.view rc pkt.seq).packets = [pkt] := by
  obtain ⟨before, after, hinside⟩ := List.append_of_mem hpkt
  obtain ⟨stage, seq, hcurrent, hstage, hsingle, hnonempty⟩ := hinv.stage_of_inside hinside
  obtain ⟨x, hpackets, hseq, hrank, hport⟩ := packet_of_stage hstage hnonempty
  obtain ⟨rfl, -⟩ := hsingle x hpackets
  subst hseq
  have hdistributed : ¬ t.Distributed pkt.seq := fun hdistributed => by
    have hlt := hinv.distributed_iff.1 hdistributed
    omega
  exact ⟨hport, (place_of_stage hdistributed hstage).trans hrank.symm, hpackets⟩

theorem Inv.place_of_sent0 (hcount : 0 < rc.count 0)
    (hsent : ∀ p ∈ rc.onPipe 0, (t.sent p seq).isSome) : 1 ≤ t.place rc seq := by
  obtain ⟨p, hp⟩ := List.exists_mem_of_length_pos hcount
  rcases hinv.stage_or_distributed (hsent p hp) with hdistributed | ⟨stage, hstage, hplace⟩
  · rw [place_of_distributed hdistributed]
    decide
  · rw [hplace]
    cases stage with
    | collecting0 => exact absurd (complete_contributed hsent nofun) (hstage.progress0.1 rfl)
    | _ => decide

theorem Inv.place_of_sent3 {p : Participant} (hp : (t.sent p seq).isSome)
    (hsent : ∀ p ∈ rc.onPipe 3, (t.sent p seq).isSome) (hplace : 3 ≤ t.place rc seq) :
    4 ≤ t.place rc seq := by
  rcases hinv.stage_or_distributed hp with hdistributed | ⟨stage, hstage, heq⟩
  · rw [place_of_distributed hdistributed]
    decide
  · rw [heq] at hplace ⊢
    cases stage with
    | collecting3 =>
        exact absurd (complete_contributed hsent fun _ _ => rfl) (hstage.waiting3 rfl)
    | clearing3 => exact le_refl _
    | _ => contradiction

theorem Inv.place_of_count3 {p : Participant} (hp : (t.sent p seq).isSome) (hcount : rc.count 3 = 0)
    (hplace : 2 ≤ t.place rc seq) : 5 ≤ t.place rc seq := by
  rcases hinv.stage_or_distributed hp with hdistributed | ⟨stage, hstage, heq⟩
  · rw [place_of_distributed hdistributed]
  · rw [heq] at hplace
    have hempty : rc.onPipe 3 = [] := List.length_eq_zero_iff.1 hcount
    cases stage with
    | crossing => exact absurd hcount (count_of_connected hstage.token.1).2.ne'
    | collecting3 =>
        refine absurd (complete_contributed (fun p hp => ?_) fun _ _ => rfl) (hstage.waiting3 rfl)
        rw [hempty] at hp
        contradiction
    | clearing3 => exact absurd hcount hstage.token.1.ne'
    | _ => contradiction

end Places

theorem inside_of_place {port : PortId} (hport : port = 68 ∨ port = 448 ∨ port = 452)
    (hplace : t.place rc seq = portRank port) : t.Inside seq port := by
  rw [place, stageOf] at hplace
  split at hplace
  · rcases hport with rfl | rfl | rfl <;> contradiction
  · split at hplace
    · rename_i hinside
      rcases hport with rfl | rfl | rfl
      · exact hinside
      · contradiction
      · contradiction
    · split at hplace
      · rename_i hinside
        rcases hport with rfl | rfl | rfl
        · contradiction
        · exact hinside
        · contradiction
      · split at hplace
        · rename_i hinside
          rcases hport with rfl | rfl | rfl
          · contradiction
          · contradiction
          · exact hinside
        · split at hplace <;> rcases hport with rfl | rfl | rfl <;> contradiction

/-! ### A number goes on -/

/-- One number goes on, and not past a smaller one. -/
structure Advances (rc : CollectiveChannel) (t t' : Traffic) (seq : Nat) : Prop where
  others : ∀ seq' ≠ seq, t'.place rc seq' = t.place rc seq'
  le : t.place rc seq ≤ t'.place rc seq
  behind : ∀ seq' < seq, t'.place rc seq ≤ t.place rc seq'

theorem Advances.antitone (h : Advances rc t t' seq) (hplaces : Antitone (t.place rc)) :
    Antitone (t'.place rc) := by
  intro a b hab
  rcases Nat.eq_or_lt_of_le hab with rfl | hlt
  · exact le_refl _
  · by_cases hb : b = seq
    · subst hb
      rw [h.others a hlt.ne]
      exact h.behind a hlt
    · rw [h.others b hb]
      by_cases ha : a = seq
      · subst ha
        exact (hplaces hab).trans h.le
      · rw [h.others a ha]
        exact hplaces hab

theorem distributed_of_place (hplace : 5 ≤ t.place rc seq) : t.Distributed seq := by
  by_contra hnot
  rw [place, if_neg hnot] at hplace
  cases hstage : t.stageOf rc seq <;> rw [hstage] at hplace <;> contradiction

/-- The packets at a port stay sorted when the number that went on comes to it. -/
theorem Advances.queues (h : Advances rc t t' seq) (hplaces : Antitone (t.place rc)) (hinv' : Inv rc t')
    (hlt : t.place rc seq < t'.place rc seq) {rest : List Packet} {x : Packet} (hx : x.seq = seq)
    (hinside : t'.switch.inside = rest ++ [x])
    (hrest : rest.Pairwise fun x y => x.port = y.port → x.seq < y.seq) :
    t'.switch.inside.Pairwise fun x y => x.port = y.port → x.seq < y.seq := by
  rw [hinside]
  refine List.pairwise_append.2 ⟨hrest, List.pairwise_singleton _ _, fun y hy z hz hport => ?_⟩
  rw [List.mem_singleton.1 hz] at hport ⊢
  have hmem : ∀ z ∈ rest ++ [x], z ∈ t'.switch.inside := fun z hz => hinside ▸ hz
  obtain ⟨-, hplacex, hpackets⟩ := hinv'.packet_inside (hmem x (List.mem_append_right _
    (List.mem_singleton_self x)))
  obtain ⟨-, hplacey, -⟩ := hinv'.packet_inside (hmem y (List.mem_append_left _ hy))
  have hne : y.seq ≠ x.seq := by
    intro heq
    have hfilter : (rest ++ [x]).filter (fun pkt => pkt.seq % 256 = x.seq % 256) = [x] := by
      rw [← hinside]
      exact hpackets
    rw [filter_append_same (List.forall_mem_singleton.2 rfl), List.append_left_eq_self] at hfilter
    have hnone := List.filter_eq_nil_iff.1 hfilter y hy
    rw [heq] at hnone
    exact hnone (decide_eq_true rfl)
  rw [hport, ← hplacex, hx, h.others _ (hx ▸ hne)] at hplacey
  refine lt_of_le_of_ne (Nat.le_of_not_lt fun hgt => ?_) hne
  have hle := hplaces (hx ▸ hgt.le)
  omega

/-! ### The events -/

variable {channels : List CollectiveChannel} {m : Matcher} {asic : Asic}

section Internal

variable {before after : List Packet} {pkt : Packet}
  (hinside : t.switch.inside = before ++ pkt :: after)

include hinside

theorem Ordered.lt_place (hord : Ordered rc t) (hinv : Inv rc t)
    (hfirst : ∀ x ∈ before, x.port ≠ pkt.port) (hlt : seq < pkt.seq) :
    t.place rc pkt.seq < t.place rc seq := by
  refine lt_of_le_of_ne (hord.places hlt.le) fun heq => ?_
  have hpkt : pkt ∈ t.switch.inside := hinside ▸ List.mem_append_right _ List.mem_cons_self
  obtain ⟨hport, hplace, -⟩ := hinv.packet_inside hpkt
  obtain ⟨x, hx, hseq, hxport⟩ := inside_of_place hport (heq.symm.trans hplace)
  rw [hinside] at hx
  rcases List.mem_append.1 hx with hx | hx
  · exact hfirst x hx hxport
  · rcases List.mem_cons.1 hx with rfl | hx
    · omega
    · have hqueues := hord.queues
      rw [hinside] at hqueues
      have hsorted := (List.pairwise_cons.1 (List.pairwise_append.1 hqueues).2.1).1 x hx hxport.symm
      omega

end Internal

theorem Passed.inside_or {rest : List Packet} {pkt : Packet} (h : Passed rc t rest pkt t') :
    t'.switch.inside = rest ∨ ∃ x, t'.switch.inside = rest ++ [x] ∧ x.seq = pkt.seq := by
  cases h with
  | handed f hport hbefore hinside hresults hafter => exact Or.inr ⟨_, hinside, rfl⟩
  | taken hport hbefore hresults hafter =>
      rcases hafter with ⟨f, hinside, -⟩ | ⟨hinside, -⟩
      · exact Or.inr ⟨_, hinside, rfl⟩
      · exact Or.inl hinside
  | distributed pipe p f sum hport hpipe hf hfinishes hinside hresults hafter => exact Or.inl hinside

theorem Passed.results_or {rest : List Packet} {pkt : Packet} (h : Passed rc t rest pkt t') :
    t'.switch.results = t.switch.results ∨
      ∃ r, t'.switch.results = t.switch.results ++ [r] ∧ r.seq = pkt.seq := by
  cases h with
  | handed f hport hbefore hinside hresults hafter => exact Or.inl hresults
  | taken hport hbefore hresults hafter => exact Or.inl hresults
  | distributed pipe p f sum hport hpipe hf hfinishes hinside hresults hafter =>
      exact Or.inr ⟨_, hresults, rfl⟩

theorem distributed_congr (h : t'.switch.results = t.switch.results) (seq : Nat) :
    t'.Distributed seq ↔ t.Distributed seq := by
  rw [Distributed, h, Distributed]

section Internal

variable {before after : List Packet} {pkt : Packet}

theorem Passed.place_of_ne (hinside : t.switch.inside = before ++ pkt :: after)
    (h : Passed rc t (before ++ after) pkt t') (hsent : t'.sent = t.sent) (hne : seq ≠ pkt.seq) :
    t'.place rc seq = t.place rc seq := by
  refine place_congr ?_ (fun port => ?_) (fun p => by rw [hsent])
  · rcases h.results_or with hresults | ⟨r, hresults, hr⟩
    · exact distributed_congr hresults seq
    · simp only [Distributed, hresults, List.mem_append, List.mem_singleton]
      constructor
      · rintro ⟨r', hr' | rfl, rfl⟩
        · exact ⟨r', hr', rfl⟩
        · exact absurd hr hne
      · rintro ⟨r', hr', rfl⟩
        exact ⟨r', Or.inl hr', rfl⟩
  · have hrest : (∃ x ∈ before ++ after, x.seq = seq ∧ x.port = port) ↔ t.Inside seq port := by
      simp only [Inside, hinside, List.mem_append, List.mem_cons]
      constructor
      · rintro ⟨x, hx | hx, hseq⟩
        · exact ⟨x, Or.inl hx, hseq⟩
        · exact ⟨x, Or.inr (Or.inr hx), hseq⟩
      · rintro ⟨x, hx | rfl | hx, hseq⟩
        · exact ⟨x, Or.inl hx, hseq⟩
        · exact absurd hseq.1.symm hne
        · exact ⟨x, Or.inr hx, hseq⟩
    rw [← hrest]
    rcases h.inside_or with hnew | ⟨x, hnew, hx⟩
    · rw [Inside, hnew]
    · simp only [Inside, hnew, List.mem_append, List.mem_singleton]
      constructor
      · rintro ⟨y, hy | rfl, hseq⟩
        · exact ⟨y, hy, hseq⟩
        · exact absurd (hseq.1.symm.trans hx) hne
      · rintro ⟨y, hy, hseq⟩
        exact ⟨y, Or.inl hy, hseq⟩

/-- A packet that comes in again takes its number on, and no further than the smaller ones. -/
theorem Passed.advances (hpassed : Passed rc t (before ++ after) pkt t') (hord : Ordered rc t)
    (hinv : Inv rc t) (hsent : t'.sent = t.sent) (hinside : t.switch.inside = before ++ pkt :: after)
    (hfirst : ∀ x ∈ before, x.port ≠ pkt.port) :
    Advances rc t t' pkt.seq ∧ t.place rc pkt.seq < t'.place rc pkt.seq := by
  have hlt : ∀ seq < pkt.seq, t.place rc pkt.seq < t.place rc seq := fun seq hseq =>
    hord.lt_place hinside hinv hfirst hseq
  have hpkt : pkt ∈ t.switch.inside := hinside ▸ List.mem_append_right _ List.mem_cons_self
  have hplace := (hinv.packet_inside hpkt).2.1
  have hnot : ¬ t.Distributed pkt.seq := fun hdistributed => by
    rw [place_of_distributed hdistributed] at hplace
    have hle := portRank_le pkt.port
    omega
  suffices hstep : t.place rc pkt.seq < t'.place rc pkt.seq ∧
      ∀ seq < pkt.seq, t'.place rc pkt.seq ≤ t.place rc seq from
    ⟨⟨fun seq hne => hpassed.place_of_ne hinside hsent hne, hstep.1.le, hstep.2⟩, hstep.1⟩
  cases hpassed with
  | handed f hport hbefore hinside' hresults hafter =>
      have hplace' := place_of_stage (mt (distributed_congr hresults _).1 hnot) hafter
      rw [hport] at hplace
      rw [hplace', hplace]
      rw [hplace] at hlt
      exact ⟨by decide, fun seq hseq => hlt seq hseq⟩
  | taken hport hbefore hresults hafter =>
      have hnot' := mt (distributed_congr hresults pkt.seq).1 hnot
      rw [hport] at hplace
      rw [hplace] at hlt ⊢
      rcases hafter with ⟨f, -, hafter⟩ | ⟨-, hafter⟩
      · rw [place_of_stage hnot' hafter]
        refine ⟨by decide, fun seq hseq => ?_⟩
        have hgiven : ∀ p ∈ rc.onPipe 3, (t.sent p seq).isSome := by
          intro p hp
          have hsome := given_of_complete (hafter.complete3 rfl) hp
          change (t'.sent p pkt.seq).isSome = true at hsome
          rw [hsent] at hsome
          exact hord.sent p _ hsome seq hseq
        obtain ⟨p, hp⟩ := List.exists_mem_of_length_pos hafter.token.1
        exact hinv.place_of_sent3 (hgiven p hp) hgiven (hlt seq hseq)
      · rw [place_of_stage hnot' hafter]
        exact ⟨by decide, fun seq hseq => hlt seq hseq⟩
  | distributed pipe p f sum hport hpipe hf hfinishes hinside' hresults hafter =>
      have hdistributed : t'.Distributed pkt.seq := by
        refine ⟨resultOf rc pkt.seq { f with aggregate := sum }, ?_, rfl⟩
        rw [hresults]
        exact List.mem_append_right _ (List.mem_singleton_self _)
      rw [place_of_distributed hdistributed]
      rw [hport] at hplace
      rcases hpipe with ⟨rfl, hcount⟩ | rfl
      · rw [hplace] at hlt ⊢
        refine ⟨by decide, fun seq hseq => hinv.place_of_count3 (p := p) ?_ hcount (hlt seq hseq)⟩
        exact hord.sent p _ (by rw [hf]; rfl) seq hseq
      · rw [hplace] at hlt ⊢
        exact ⟨by decide, fun seq hseq => hlt seq hseq⟩

theorem Ordered.internal (hord : Ordered rc t) (hinv : Inv rc t) (hinv' : Inv rc t')
    (hsent : t'.sent = t.sent) (hinside : t.switch.inside = before ++ pkt :: after)
    (hpassed : Passed rc t (before ++ after) pkt t') (hfirst : ∀ x ∈ before, x.port ≠ pkt.port) :
    Ordered rc t' := by
  obtain ⟨hadvances, hlt⟩ := hpassed.advances hord hinv hsent hinside hfirst
  have hrest : (before ++ after).Pairwise fun x y => x.port = y.port → x.seq < y.seq := by
    have hqueues := hord.queues
    rw [hinside] at hqueues
    exact hqueues.sublist (List.Sublist.append_left (List.sublist_cons_self pkt after) before)
  refine ⟨fun p seq => ?_, hadvances.antitone hord.places, ?_, ?_⟩
  · rw [hsent]
    exact hord.sent p seq
  · rcases hpassed.inside_or with hnew | ⟨x, hnew, hx⟩
    · rwa [hnew]
    · exact hadvances.queues hord.places hinv' hlt hx hnew hrest
  · rcases hpassed.results_or with hresults | ⟨r, hresults, hr⟩
    · rw [hresults]
      exact hord.results
    · -- the smaller numbers were distributed, and this one was not
      have hiff : ∀ seq, t.Distributed seq ↔ seq < t.switch.results.length := by
        intro seq
        rw [← List.mem_range, ← hord.results, List.mem_map, Distributed]
      have hdistributed : t'.Distributed pkt.seq := by
        refine ⟨r, ?_, hr⟩
        rw [hresults]
        exact List.mem_append_right _ (List.mem_singleton_self _)
      have hplace' : t'.place rc pkt.seq = 5 := place_of_distributed hdistributed
      have hge : t.switch.results.length ≤ pkt.seq := Nat.le_of_not_lt fun hold => by
        rw [place_of_distributed ((hiff _).2 hold), hplace'] at hlt
        exact lt_irrefl _ hlt
      have hle : pkt.seq ≤ t.switch.results.length := by
        by_contra hgt
        have hbehind := hadvances.behind t.switch.results.length (Nat.lt_of_not_le hgt)
        rw [hplace'] at hbehind
        exact lt_irrefl _ ((hiff _).1 (distributed_of_place hbehind))
      rw [hresults, List.map_append, hord.results, List.length_append, List.length_singleton,
        List.range_succ, List.map_singleton, hr, Nat.le_antisymm hle hge]

end Internal

section Arrive

variable {p : Participant} {f : Frame}

theorem Ordered.sentWith (hord : Ordered rc t) (hinOrder : ∀ seq' < seq, (t.sent p seq').isSome)
    (hsent : t'.sent = sentWith t.sent p seq f) :
    ∀ q n, (t'.sent q n).isSome → ∀ n' < n, (t'.sent q n').isSome := by
  have hold : ∀ q n, (t.sent q n).isSome → (t'.sent q n).isSome := by
    intro q n hsome
    rw [hsent, sentWith_apply]
    split
    · rfl
    · exact hsome
  intro q n hsome n' hlt
  rw [hsent, sentWith_apply] at hsome
  split at hsome
  · rename_i heq
    rw [heq.2] at hlt
    rw [heq.1]
    exact hold p n' (hinOrder n' hlt)
  · exact hold q n' (hord.sent q n hsome n' hlt)

theorem Ordered.sent_before (hord : Ordered rc t) (hinOrder : ∀ seq' < seq, (t.sent p seq').isSome)
    (hsent : t'.sent = Traffic.sentWith t.sent p seq f) {pipe : PipeId}
    {crossed : Option AggregateH}
    (hcomplete : Complete (contributed rc pipe (fun q => t'.sent q seq) crossed)) :
    ∀ seq' < seq, ∀ q ∈ rc.onPipe pipe, (t.sent q seq').isSome := by
  intro seq' hlt q hq
  have hsome := hord.sentWith hinOrder hsent q seq (given_of_complete hcomplete hq) seq' hlt
  rwa [hsent, sentWith_apply, if_neg fun heq => hlt.ne heq.2] at hsome

/-- A packet that arrives takes its number on or not, and no further than the smaller ones. -/
theorem Ordered.stage_arrive (h : Serving channels asic rc) (hord : Ordered rc t) (hinv : Inv rc t)
    (hnone : t.sent p seq = none) (hinOrder : ∀ seq' < seq, (t.sent p seq').isSome) {i : Nat}
    (hp : (rc.onPipe (pipeOf p.switchPort))[i]? = some p)
    (hsent : t'.sent = Traffic.sentWith t.sent p seq f)
    (hview : t'.view rc seq = (t.view rc seq).arrive rc p i seq f) {stage : Stage}
    (hstage : AtStage rc (t.view rc seq) seq stage) (hplace : t.place rc seq = stage.rank) :
    ∃ stage', AtStage rc (t'.view rc seq) seq stage' ∧
      (stage' = stage ∧ (t'.view rc seq).packets = (t.view rc seq).packets ∨
        stage.rank < stage'.rank) ∧ ∀ seq' < seq, stage'.rank ≤ t.place rc seq' := by
  have hmem := (mem_onPipe.1 (List.mem_of_getElem? hp)).1
  have hbehind : ∀ seq' < seq, stage.rank ≤ t.place rc seq' := fun seq' hlt =>
    hplace ▸ hord.places hlt.le
  rcases pipe_of_member h hmem with hpipe | hpipe <;> rw [hpipe] at hp
  · obtain ⟨rfl, ⟨-, hnext⟩ | ⟨hempty, hnext⟩⟩ :=
      hstage.arrive0 h.nodup_members (contributions_le_64 h) hp hnone
    · rw [← hview] at hnext
      refine ⟨_, hnext, Or.inr (by decide), fun seq' hlt => ?_⟩
      exact hinv.place_of_sent0 (List.length_pos_of_mem (List.mem_of_getElem? hp))
        (hord.sent_before hinOrder hsent (not_not.1 (hnext.progress0.not.1 nofun)) seq' hlt)
    · rw [← hview] at hnext hempty
      exact ⟨_, hnext, Or.inl ⟨rfl, hempty.trans hstage.token.symm⟩, hbehind⟩
  · rcases hstage.arrive3 h.nodup_members (contributions_le_64 h) hp hnone with
      ⟨-, hsame, hnext⟩ | ⟨rfl, ⟨-, hnext⟩ | ⟨hempty, hnext⟩⟩
    · rw [← hview] at hnext hsame
      exact ⟨_, hnext, Or.inl ⟨rfl, hsame⟩, hbehind⟩
    · rw [← hview] at hnext
      refine ⟨_, hnext, Or.inr (by decide), fun seq' hlt => ?_⟩
      exact hinv.place_of_sent3 (hinOrder seq' hlt)
        (hord.sent_before hinOrder hsent (hnext.complete3 rfl) seq' hlt) (hbehind seq' hlt)
    · rw [← hview] at hnext hempty
      exact ⟨_, hnext, Or.inl ⟨rfl, hempty.trans hstage.token.symm⟩, hbehind⟩

theorem Ordered.arrive (h : Serving channels asic rc) (hord : Ordered rc t) (hinv : Inv rc t)
    (hmay : MaySend rc t p seq) (hf : SentBy rc p seq f)
    (hinOrder : ∀ seq' < seq, (t.sent p seq').isSome) :
    Ordered rc ⟨t.switch.process m asic ⟨p.switchPort, f, seq⟩, Traffic.sentWith t.sent p seq f⟩ := by
  have hinv' := hinv.arrive (m := m) h hmay hf
  obtain ⟨i, hp⟩ := List.mem_iff_getElem?.1 (mem_onPipe.2 ⟨hmay.1, rfl⟩)
  have hview := view_arrive (m := m) (t := t) h hp hf
  have hprocess := process_arrive (m := m) h hp hf t.switch
  have hcurrent := hinv.current_of_maySend hmay
  generalize ht' : (⟨t.switch.process m asic ⟨p.switchPort, f, seq⟩,
    Traffic.sentWith t.sent p seq f⟩ : Traffic) = t' at hinv' hview ⊢
  have hsent : t'.sent = Traffic.sentWith t.sent p seq f := by rw [← ht']
  have hresults : t'.switch.results = t.switch.results := by rw [← ht', hprocess]
  obtain ⟨new, hinside, hnew⟩ : ∃ new, t'.switch.inside = t.switch.inside ++ new ∧
      (new = [] ∨ ∃ x, new = [x] ∧ x.seq = seq) := by
    rw [← ht', hprocess]
    refine ⟨_, rfl, ?_⟩
    split
    · exact Or.inr ⟨_, rfl, rfl⟩
    · exact Or.inl rfl
  have hseq : ∀ x ∈ new, x.seq = seq := by
    rcases hnew with rfl | ⟨x, rfl, hx⟩
    · exact List.forall_mem_nil _
    · exact List.forall_mem_singleton.2 hx
  have hnot : ¬ t.Distributed seq := fun hdistributed => by
    have hlt := hinv.distributed_iff.1 hdistributed
    omega
  obtain ⟨stage, hstage⟩ := hinv.slots _ (Nat.mod_lt seq (by decide))
  rw [hcurrent] at hstage
  have hplace := place_of_stage hnot hstage
  obtain ⟨stage', hstage', hmoves, hbehind⟩ :=
    hord.stage_arrive h hinv hmay.2.1 hinOrder hp hsent hview hstage hplace
  have hplace' := place_of_stage (mt (distributed_congr hresults _).1 hnot) hstage'
  have hpackets : (t'.view rc seq).packets = (t.view rc seq).packets ++ new := by
    change t'.switch.inside.filter _ = _
    rw [hinside, filter_append_same hseq]
    rfl
  have hadvances : Advances rc t t' seq := by
    refine ⟨fun seq' hne => ?_, ?_, fun seq' hlt => hplace' ▸ hbehind seq' hlt⟩
    · refine place_congr (distributed_congr hresults _) (fun port => ?_) fun q => ?_
      · simp only [Inside, hinside, List.mem_append]
        constructor
        · rintro ⟨x, hx | hx, hxseq, hport⟩
          · exact ⟨x, hx, hxseq, hport⟩
          · exact absurd (hxseq.symm.trans (hseq x hx)) hne
        · rintro ⟨x, hx, hxseq⟩
          exact ⟨x, Or.inl hx, hxseq⟩
      · rw [hsent, sentWith_apply, if_neg fun heq => hne heq.2]
    · rw [hplace, hplace']
      rcases hmoves with ⟨rfl, -⟩ | hlt
      · exact le_refl _
      · exact hlt.le
  refine ⟨hord.sentWith hinOrder hsent, hadvances.antitone hord.places, ?_, ?_⟩
  · rcases hnew with rfl | ⟨x, rfl, hx⟩
    · rw [hinside, List.append_nil]
      exact hord.queues
    · rcases hmoves with ⟨-, hsame⟩ | hlt
      · rw [hpackets, List.append_right_eq_self] at hsame
        contradiction
      · rw [← hplace, ← hplace'] at hlt
        exact hadvances.queues hord.places hinv' hlt hx hinside hord.queues
  · rw [hresults]
    exact hord.results

end Arrive

theorem Ordered.step (h : Serving channels asic rc) (hord : Ordered rc t) (hinv : Inv rc t)
    {e : TrafficEvent} (hstep : Step m asic rc t e t') (hinOrder : t.InOrder e) : Ordered rc t' := by
  cases hstep with
  | arrive hmay hf => exact hord.arrive h hinv hmay hf hinOrder
  | @internal before after pkt hinside =>
      refine hord.internal hinv (hinv.internal h hinside) rfl hinside (hinv.passed h hinside).2.2 ?_
      have hget : t.switch.inside[before.length]? = some pkt := by
        rw [hinside, List.getElem?_append_right (le_refl _), Nat.sub_self]
        rfl
      have htake : t.switch.inside.take before.length = before := by
        rw [hinside, List.take_left]
      have hfirst := hinOrder pkt hget
      rwa [htake] at hfirst

theorem ordered_start : Ordered rc start := by
  refine ⟨fun p seq hsome => by contradiction, fun a b hab => le_of_eq ?_, List.Pairwise.nil, rfl⟩
  refine place_congr (iff_of_false ?_ ?_) (fun port => iff_of_false ?_ ?_) fun p => rfl
  all_goals
    rintro ⟨x, hx, -⟩
    contradiction

end Traffic

end Mpitofino
