import Mpitofino.System.Network

/-!
# Delivery in order

While no packet to the switch is lost and no participant sends a number before the switch distributed
the one 256 before it, the switch gets what the participants sent, and what it distributes goes to every
participant in order.
-/

namespace Mpitofino

open AsicDriver

def NetworkEvent.Lossless : NetworkEvent → Prop
  | .loseUp _ _ => False
  | .loseDown _ _ => False
  | _ => True

namespace Network

/-- A participant sends nothing 256 numbers ahead of the results it received. -/
def Windowed (n : Network) : NetworkEvent → Prop
  | .send p _ => ∀ seq, seq + 256 = (n.packets p).length → ∃ d ∈ n.received p, d.seq = seq
  | _ => True

/-- What holds while no packet to the switch is lost. -/
structure Carried (asic : Asic) (rc : CollectiveChannel) (n : Network) : Prop where
  inv : Traffic.Inv rc n.traffic
  ordered : Traffic.Ordered rc n.traffic
  packets : ∀ p seq f, (n.packets p)[seq]? = some f → p ∈ rc.members ∧ SentBy rc p seq f
  uplinks : ∀ p, ∃ arrived ≤ (n.packets p).length,
    n.uplink p = (n.packets p).zipIdx.drop arrived ∧
      ∀ seq, n.traffic.sent p seq = ((n.packets p).take arrived)[seq]?
  windows : ∀ p seq, seq + 256 < (n.packets p).length → n.traffic.Distributed seq
  copies : ∀ c ∈ n.copies, ∃ r ∈ n.traffic.switch.results, c ∈ copiesOf asic rc r

variable {channels : List CollectiveChannel} {m : Matcher} {asic : Asic} {rc : CollectiveChannel}
  {n n' : Network}

theorem carried_start (h : Serving channels asic rc) : Carried asic rc start where
  inv := Traffic.inv_start h
  ordered := Traffic.ordered_start
  packets _ _ _ hf := by contradiction
  uplinks _ := ⟨0, le_refl _, rfl, fun _ => rfl⟩
  windows _ _ hlt := by contradiction
  copies _ hc := by contradiction

section Events

variable (hn : Carried asic rc n)

include hn

theorem Carried.groups {r : Result} (hr : r ∈ n.traffic.switch.results) :
    r.mcastGrp = mcastGroup rc.aggUnit := by
  obtain ⟨p, f, -, horigin⟩ := hn.inv.origin r hr
  rw [horigin]
  rfl

theorem Carried.send {p : Participant} {f : Frame} (hp : p ∈ rc.members)
    (hf : SentBy rc p (n.packets p).length f)
    (hwindow : ∀ seq, seq + 256 = (n.packets p).length → n.traffic.Distributed seq) :
    Carried asic rc { n with
      packets := Function.update n.packets p (n.packets p ++ [f])
      uplink := Function.update n.uplink p (n.uplink p ++ [(f, (n.packets p).length)]) } := by
  refine ⟨hn.inv, hn.ordered, fun q seq f' hf' => ?_, fun q => ?_, fun q seq hlt => ?_, hn.copies⟩
  · by_cases hq : q = p
    · subst hq
      dsimp only at hf'
      rw [Function.update_self] at hf'
      rcases Nat.lt_trichotomy seq (n.packets q).length with hlt | rfl | hgt
      · rw [List.getElem?_append_left hlt] at hf'
        exact hn.packets q seq f' hf'
      · rw [List.getElem?_concat_length] at hf'
        obtain rfl := Option.some.inj hf'
        exact ⟨hp, hf⟩
      · rw [List.getElem?_eq_none (by rw [List.length_append]; exact hgt)] at hf'
        contradiction
    · dsimp only at hf'
      rw [Function.update_of_ne hq] at hf'
      exact hn.packets q seq f' hf'
  · obtain ⟨arrived, hle, huplink, hsent⟩ := hn.uplinks q
    by_cases hq : q = p
    · subst hq
      dsimp only
      rw [Function.update_self, Function.update_self]
      refine ⟨arrived, ?_, ?_, fun seq => ?_⟩
      · rw [List.length_append]
        exact Nat.le_add_right_of_le hle
      · rw [huplink, List.zipIdx_append, List.drop_append_of_le_length (by rwa [List.length_zipIdx])]
        simp
      · rw [hsent, List.take_append_of_le_length hle]
    · dsimp only
      rw [Function.update_of_ne hq, Function.update_of_ne hq]
      exact ⟨arrived, hle, huplink, hsent⟩
  · by_cases hq : q = p
    · subst hq
      dsimp only at hlt
      rw [Function.update_self, List.length_append, List.length_singleton] at hlt
      rcases Nat.lt_succ_iff_lt_or_eq.1 hlt with hlt | heq
      · exact hn.windows q seq hlt
      · exact hwindow seq heq
    · dsimp only at hlt
      rw [Function.update_of_ne hq] at hlt
      exact hn.windows q seq hlt

theorem Carried.head_uplink {p : Participant} {f : Frame} {seq : Nat} {rest : List (Frame × Nat)}
    (huplink : n.uplink p = (f, seq) :: rest) : (n.packets p)[seq]? = some f ∧
      rest = (n.packets p).zipIdx.drop (seq + 1) ∧
      ∀ seq', n.traffic.sent p seq' = ((n.packets p).take seq)[seq']? := by
  obtain ⟨arrived, hle, hdrop, hsent⟩ := hn.uplinks p
  rw [huplink] at hdrop
  have hlt : arrived < (n.packets p).length := by
    by_contra hge
    rw [List.drop_eq_nil_of_le (by rw [List.length_zipIdx]; omega)] at hdrop
    contradiction
  rw [List.drop_eq_getElem_cons (by rwa [List.length_zipIdx]), List.getElem_zipIdx,
    Nat.zero_add] at hdrop
  obtain ⟨hfirst, rfl⟩ := List.cons.inj hdrop
  obtain ⟨rfl, rfl⟩ := Prod.mk.inj hfirst
  exact ⟨List.getElem?_eq_getElem hlt, rfl, hsent⟩

theorem Carried.results_arrive (h : Serving channels asic rc) {p : Participant} {f : Frame}
    {seq : Nat} {rest : List (Frame × Nat)} (huplink : n.uplink p = (f, seq) :: rest) :
    (n.traffic.switch.process m asic ⟨p.switchPort, f, seq⟩).results =
      n.traffic.switch.results := by
  obtain ⟨hp, hf⟩ := hn.packets p seq f (hn.head_uplink huplink).1
  obtain ⟨i, hi⟩ := List.mem_iff_getElem?.1 (mem_onPipe.2 ⟨hp, rfl⟩)
  rw [Traffic.process_arrive h hi hf]

theorem Carried.arrive (h : Serving channels asic rc) {p : Participant} {f : Frame} {seq : Nat}
    {rest : List (Frame × Nat)} (huplink : n.uplink p = (f, seq) :: rest) :
    Carried asic rc { n with
      traffic := ⟨n.traffic.switch.process m asic ⟨p.switchPort, f, seq⟩,
        Traffic.sentWith n.traffic.sent p seq f⟩
      uplink := Function.update n.uplink p rest } := by
  obtain ⟨hget, hrest, hsent⟩ := hn.head_uplink huplink
  have hlt := (List.getElem?_eq_some_iff.1 hget).1
  obtain ⟨hp, hf⟩ := hn.packets p seq f hget
  have hold : ∀ seq' < seq, (n.traffic.sent p seq').isSome := by
    intro seq' hlt'
    rw [hsent, List.getElem?_take_of_lt hlt', List.getElem?_eq_getElem (hlt'.trans hlt)]
    rfl
  have hmay : Traffic.MaySend rc n.traffic p seq := by
    refine ⟨hp, ?_, fun seq' heq => hn.windows p seq' (by omega)⟩
    rw [hsent]
    exact List.getElem?_eq_none (by rw [List.length_take]; omega)
  have hstep : Traffic.Step m asic rc n.traffic (.arrive p seq f) _ := .arrive hmay hf
  have hresults := hn.results_arrive (m := m) h huplink
  refine ⟨hn.inv.step h hstep, hn.ordered.step h hn.inv hstep hold, hn.packets, fun q => ?_,
    fun q seq' hlt' => ?_, fun c hc => ?_⟩
  · by_cases hq : q = p
    · subst hq
      dsimp only
      rw [Function.update_self]
      refine ⟨seq + 1, hlt, hrest, fun seq' => ?_⟩
      rw [Traffic.sentWith_apply]
      by_cases hseq : seq' = seq
      · rw [if_pos ⟨rfl, hseq⟩, hseq, List.getElem?_take_of_lt (Nat.lt_succ_self seq), hget]
      · rw [if_neg fun heq => hseq heq.2, hsent, List.getElem?_take, List.getElem?_take]
        split_ifs <;> first | rfl | omega
    · obtain ⟨arrived, hle', huplink', hsent'⟩ := hn.uplinks q
      dsimp only
      rw [Function.update_of_ne hq]
      refine ⟨arrived, hle', huplink', fun seq' => ?_⟩
      rw [Traffic.sentWith_apply, if_neg fun heq => hq heq.1]
      exact hsent' seq'
  · exact (Traffic.distributed_congr (t := n.traffic) hresults seq').2 (hn.windows q seq' hlt')
  · obtain ⟨r, hr, hcopy⟩ := hn.copies c hc
    exact ⟨r, hresults ▸ hr, hcopy⟩

theorem Carried.internal (h : Serving channels asic rc) {before after : List Packet} {pkt : Packet}
    (hinside : n.traffic.switch.inside = before ++ pkt :: after)
    (hfirst : ∀ x ∈ before, x.port ≠ pkt.port) {sw : Switch} {distributed : List Result}
    (hprocess : { n.traffic.switch with inside := before ++ after }.process m asic pkt = sw)
    (hresults : sw.results = n.traffic.switch.results ++ distributed) :
    Carried asic rc { n with
      traffic := ⟨sw, n.traffic.sent⟩
      copies := n.copies ++ distributed.flatMap (copiesOf asic rc) } := by
  have hstep : Traffic.Step m asic rc n.traffic (.internal before.length) ⟨sw, n.traffic.sent⟩ :=
    hprocess ▸ .internal hinside
  have hget : n.traffic.switch.inside[before.length]? = some pkt := by
    rw [hinside, List.getElem?_append_right (le_refl _), Nat.sub_self]
    rfl
  have hinOrder : n.traffic.InOrder (.internal before.length) := by
    intro pkt' hpkt' x hx
    obtain rfl := Option.some.inj (hget.symm.trans hpkt')
    rw [hinside, List.take_left] at hx
    exact hfirst x hx
  refine ⟨hn.inv.step h hstep, hn.ordered.step h hn.inv hstep hinOrder, hn.packets, hn.uplinks,
    fun q seq hlt => ?_, fun c hc => ?_⟩
  · obtain ⟨r, hr, hseq⟩ := hn.windows q seq hlt
    exact ⟨r, hresults ▸ List.mem_append_left _ hr, hseq⟩
  · rcases List.mem_append.1 hc with hc | hc
    · obtain ⟨r, hr, hcopy⟩ := hn.copies c hc
      exact ⟨r, hresults ▸ List.mem_append_left _ hr, hcopy⟩
    · obtain ⟨r, hr, hcopy⟩ := List.mem_flatMap.1 hc
      exact ⟨r, hresults ▸ List.mem_append_right _ hr, hcopy⟩

theorem Carried.fanOut_eq {c : Copy} (hc : c ∈ n.copies) :
    n.traffic.switch.fanOut m asic c = (n.traffic.switch, [c.delivery]) := by
  obtain ⟨r, hr, hcopy⟩ := hn.copies c hc
  exact Switch.fanOut_eq (receiver_of_mem_copiesOf hcopy).2 _

theorem Carried.congr (htraffic : n'.traffic = n.traffic) (hpackets : n'.packets = n.packets)
    (huplink : n'.uplink = n.uplink) (hcopies : n'.copies ⊆ n.copies) : Carried asic rc n' := by
  refine ⟨htraffic ▸ hn.inv, htraffic ▸ hn.ordered, hpackets ▸ hn.packets, fun p => ?_,
    fun p seq hlt => ?_, fun c hc => ?_⟩
  · rw [htraffic, hpackets, huplink]
    exact hn.uplinks p
  · rw [htraffic]
    exact hn.windows p seq (hpackets ▸ hlt)
  · rw [htraffic]
    exact hn.copies c (hcopies hc)

/-- What holds stays, if no packet to the switch is lost and none is sent too early. -/
theorem Carried.step (h : Serving channels asic rc)
    {e : NetworkEvent} (hstep : Step m asic rc n e n') (hkeeps : ∀ p k, e ≠ .loseUp p k)
    (hwindow : ∀ p f, e = .send p f → ∀ seq, seq + 256 = (n.packets p).length →
      n.traffic.Distributed seq) : Carried asic rc n' := by
  cases hstep with
  | send hp hf => exact hn.send hp hf (hwindow _ _ rfl)
  | arrive huplink => exact hn.arrive h huplink
  | internal hinside hfirst hprocess hresults => exact hn.internal h hinside hfirst hprocess hresults
  | @fanOut before after c hcopies hfirst =>
      have hc : c ∈ n.copies := hcopies ▸ List.mem_append_right _ List.mem_cons_self
      rw [hn.fanOut_eq hc]
      refine hn.congr rfl rfl rfl ?_
      rw [hcopies]
      exact List.append_subset.2 ⟨List.subset_append_left _ _,
        fun x hx => List.mem_append_right _ (List.mem_cons_of_mem _ hx)⟩
  | receive hdownlink => exact hn.congr rfl rfl rfl (List.Subset.refl _)
  | loseUp huplink => exact absurd rfl (hkeeps _ _)
  | loseDown hdownlink => exact hn.congr rfl rfl rfl (List.Subset.refl _)

end Events

/-! ### What a participant gets -/

section Streams

variable (asic : Asic) (rc : CollectiveChannel) (n : Network) (p : Participant)

/-- What the switch distributed to a participant. -/
def distributedTo : List Delivery :=
  ((n.traffic.switch.results.flatMap (copiesOf asic rc)).filter (·.receiver = p)).map Copy.delivery

/-- What the participant received, and behind it what is on its way. -/
def stream : List Delivery :=
  n.received p ++ n.downlink p ++ (n.copies.filter (·.receiver = p)).map Copy.delivery

end Streams

theorem Carried.filter_copies (h : Serving channels asic rc) (hn : Carried asic rc n)
    {before after : List Copy} {c : Copy} (hcopies : n.copies = before ++ c :: after)
    (hfirst : ∀ x ∈ before, x.port ≠ c.port) :
    before.filter (·.receiver = c.receiver) = [] := by
  refine List.filter_eq_nil_iff.2 fun x hx heq => hfirst x hx ?_
  obtain ⟨r, hr, hxr⟩ := hn.copies x (hcopies ▸ List.mem_append_left _ hx)
  obtain ⟨r', hr', hcr⟩ := hn.copies c (hcopies ▸ List.mem_append_right _ List.mem_cons_self)
  exact port_eq_of_receiver (hn.groups hr) h.nodup_members (hn.groups hr') hxr hcr
    (of_decide_eq_true heq)

/-- What is on its way stays in order, and what is distributed comes behind it. -/
theorem Carried.stream_step (h : Serving channels asic rc)
    (hn : Carried asic rc n) {e : NetworkEvent} (hstep : Step m asic rc n e n') (p : Participant) :
    ∃ new, n'.distributedTo asic rc p = n.distributedTo asic rc p ++ new ∧
      (n'.stream p).Sublist (n.stream p ++ new) ∧
      (e.Lossless → n'.stream p = n.stream p ++ new) := by
  cases hstep with
  | send hp hf => exact ⟨[], (List.append_nil _).symm, by simp [stream], fun _ => by simp [stream]⟩
  | @arrive q f seq rest huplink =>
      refine ⟨[], ?_, by simp [stream], fun _ => by simp [stream]⟩
      rw [List.append_nil, distributedTo, hn.results_arrive h huplink, distributedTo]
  | @internal before after pkt hinside hfirst sw distributed hprocess hresults =>
      refine ⟨((distributed.flatMap (copiesOf asic rc)).filter (·.receiver = p)).map Copy.delivery,
        ?_, ?_⟩
      · simp only [distributedTo, hresults, List.flatMap_append, List.filter_append, List.map_append]
      · have hstream : stream { n with
            traffic := ⟨sw, n.traffic.sent⟩
            copies := n.copies ++ distributed.flatMap (copiesOf asic rc) } p =
            n.stream p ++ ((distributed.flatMap (copiesOf asic rc)).filter
              (·.receiver = p)).map Copy.delivery := by
          simp only [stream, List.filter_append, List.map_append, List.append_assoc]
        exact ⟨hstream ▸ List.Sublist.refl _, fun _ => hstream⟩
  | @fanOut before after c hcopies hfirst =>
      have hc : c ∈ n.copies := hcopies ▸ List.mem_append_right _ List.mem_cons_self
      rw [hn.fanOut_eq hc]
      have hbefore := hn.filter_copies h hcopies hfirst
      have hstream : stream { n with
          traffic := ⟨n.traffic.switch, n.traffic.sent⟩
          copies := before ++ after
          downlink := Function.update n.downlink c.receiver (n.downlink c.receiver ++ [c.delivery]) } p =
          n.stream p := by
        by_cases hp : p = c.receiver
        · subst hp
          simp [stream, hcopies, hbefore]
        · have hne : c.receiver ≠ p := fun heq => hp heq.symm
          simp [stream, hcopies, hp, hne]
      exact ⟨[], (List.append_nil _).symm, by rw [hstream, List.append_nil],
        fun _ => by rw [hstream, List.append_nil]⟩
  | @receive q d rest hdownlink =>
      have hstream : stream { n with
          downlink := Function.update n.downlink q rest
          received := Function.update n.received q (n.received q ++ [d]) } p = n.stream p := by
        by_cases hp : p = q
        · subst hp
          simp [stream, hdownlink]
        · simp [stream, hp]
      exact ⟨[], (List.append_nil _).symm, by rw [hstream, List.append_nil],
        fun _ => by rw [hstream, List.append_nil]⟩
  | @loseUp q before after x huplink =>
      exact ⟨[], (List.append_nil _).symm, by simp [stream], fun _ => by simp [stream]⟩
  | @loseDown q before after d hdownlink =>
      refine ⟨[], (List.append_nil _).symm, ?_, nofun⟩
      rw [List.append_nil]
      by_cases hp : p = q
      · subst hp
        simp only [stream, Function.update_self, hdownlink]
        exact ((List.Sublist.append_left (List.sublist_cons_self d after) before).append_left
          _).append_right _
      · simp [stream, hp]

end Network

end Mpitofino
