import Mpitofino.Control.Programmed
import Mpitofino.Library.Run

/-!
# When the tables do not depend on the history

The agent calls the repository with a fresh unit and a fresh common part of the fabric QPs for a new
channel, and with a fabric QP under the common part for a participant. In a run of such calls the
tables are those of a first notification as long as no update changes the address, the fabric QP or
the pipe of a participant of a programmed channel; an update that does leaves the entries of the old
address behind.
-/

namespace Mpitofino

namespace AsicDriver

open FinTable (lastWrite)

structure SameTables (asic asic' : Asic) : Prop where
  unitSelector : ∀ pipe e, e ∈ (asic.pipes pipe).unitSelector.entries ↔
    e ∈ (asic'.pipes pipe).unitSelector.entries
  checkComplete : ∀ pipe e, e ∈ (asic.pipes pipe).checkComplete.entries ↔
    e ∈ (asic'.pipes pipe).checkComplete.entries
  outputAddress : ∀ pipe e, e ∈ (asic.pipes pipe).outputAddress.entries ↔
    e ∈ (asic'.pipes pipe).outputAddress.entries
  roceAckReflector : ∀ pipe e, e ∈ (asic.pipes pipe).roceAckReflector.entries ↔
    e ∈ (asic'.pipes pipe).roceAckReflector.entries
  chooseAction : ∀ i e, e ∈ (asic.chooseAction i).entries ↔ e ∈ (asic'.chooseAction i).entries
  preMgid : ∀ e, e ∈ asic.preMgid.entries ↔ e ∈ asic'.preMgid.entries
  preNode : ∀ e, e ∈ asic.preNode.entries ↔ e ∈ asic'.preNode.entries

theorem Programmed.sameTables {channels : List CollectiveChannel} {asic asic' : Asic}
    (h : Programmed channels asic) (h' : Programmed channels asic') : SameTables asic asic' := by
  have hentries : ∀ {K V : Type} [DecidableEq K] {t t' : FinTable K V},
      (∀ k, t.lookup k = t'.lookup k) → ∀ e, e ∈ t.entries ↔ e ∈ t'.entries := by
    intro K V _ t t' hlookup e
    rw [FinTable.mem_entries_iff, FinTable.mem_entries_iff, hlookup]
  exact {
    unitSelector := fun pipe => hentries fun k => (h.unitSelector pipe k).trans
      (h'.unitSelector pipe k).symm
    checkComplete := fun pipe => hentries fun k => (h.checkComplete pipe k).trans
      (h'.checkComplete pipe k).symm
    outputAddress := fun pipe => hentries fun k => (h.outputAddress pipe k).trans
      (h'.outputAddress pipe k).symm
    roceAckReflector := fun pipe => hentries fun k => (h.roceAckReflector pipe k).trans
      (h'.roceAckReflector pipe k).symm
    chooseAction := fun i => hentries fun k => (h.chooseAction i k).trans
      (h'.chooseAction i k).symm
    preMgid := hentries fun k => (h.preMgid k).trans (h'.preMgid k).symm
    preNode := hentries fun k => (h.preNode k).trans (h'.preNode k).symm }

/-! ### Calls that leave nothing behind -/

/-- An update of a participant of a programmed channel keeps the address, the fabric QP and the pipe
of that participant, or makes a channel unknown of which it is the only participant. -/
def KeepsKeys (r : StateRepository) : StateRepository.Call → Prop
  | .updateChannelParticipant tag clientId u =>
      ∀ c p, r.getChannel tag = some c → c.allNodesKnown = true →
        c.participants.find? clientId = some p →
          (u.ip = p.ip ∧ u.fabricQp = p.fabricQp ∧ pipeOf u.switchPort = pipeOf p.switchPort) ∨
            (c.members = [p] ∧ u.ip = 0)
  | _ => True

instance (r : StateRepository) : ∀ c, Decidable (KeepsKeys r c)
  | .addChannel _ => isTrue trivial
  | .updateChannelParticipant tag clientId u => decidable_of_iff
      (∀ c ∈ r.getChannel tag, c.allNodesKnown = true → ∀ p ∈ c.participants.find? clientId,
        (u.ip = p.ip ∧ u.fabricQp = p.fabricQp ∧ pipeOf u.switchPort = pipeOf p.switchPort) ∨
          (c.members = [p] ∧ u.ip = 0))
      ⟨fun h c p hc hknown hp => h c hc hknown p hp, fun h c hc hknown p hp => h c p hc hknown hp⟩
  | .removeChannel _ => isTrue trivial

section Stable

open StateRepository

variable {r : StateRepository}

theorem mem_knownChannels {channels : OrderedMap Nat CollectiveChannel} {rc : CollectiveChannel} :
    rc ∈ knownChannels channels.values ↔
      ∃ t, (t, rc) ∈ channels.entries ∧ rc.allNodesKnown = true := by
  rw [knownChannels, List.mem_filter, OrderedMap.mem_values, exists_and_right]

theorem distinct_of_wellFormed (h : WellFormed r) :
    (knownChannels r.getChannels).Pairwise fun rc rc' => rc.aggUnit ≠ rc'.aggUnit := by
  refine List.Pairwise.filter _ ?_
  rw [getChannels, OrderedMap.values, List.pairwise_map]
  refine r.channels.sorted.imp_of_mem fun ha hb hlt heq => ?_
  have hsame := h.aggUnits _ ha _ hb heq
  rw [hsame] at hlt
  exact absurd hlt (lt_irrefl _)

private theorem channel_of_address (h : WellFormed r) {e e' : Nat × CollectiveChannel}
    (he : e ∈ r.channels.entries) (he' : e' ∈ r.channels.entries) {p p' : Participant}
    (hp : p ∈ e.2.members) (hp' : p' ∈ e'.2.members) (hknown : p.ip ≠ 0) (hip : p'.ip = p.ip)
    (hqp : p'.fabricQp = p.fabricQp) : e' = e := by
  refine h.commons e' he' e he ?_
  rw [← h.fabricQps e' he' p' hp' (hip ▸ hknown), ← h.fabricQps e he p hp hknown, hqp]

private theorem stable_of_subset {r' : StateRepository} (h : WellFormed r) (h' : WellFormed r')
    (hkept : ∀ e ∈ r'.channels.entries, e ∈ r.channels.entries ∨
      (∀ e₀ ∈ r.channels.entries, e₀.2.aggUnit ≠ e.2.aggUnit ∧
        e₀.2.fabricQpCommon ≠ e.2.fabricQpCommon)) :
    Stable r.getChannels r'.getChannels := by
  refine ⟨fun rc hrc rc' hrc' heq => ?_, fun rc hrc p hp rc' hrc' p' hp' hip hqp => ?_,
    distinct_of_wellFormed h'⟩
  · obtain ⟨t, ht, -⟩ := mem_knownChannels.1 hrc
    obtain ⟨t', ht', -⟩ := mem_knownChannels.1 hrc'
    rcases hkept _ ht' with hold | hnew
    · obtain ⟨-, rfl⟩ := Prod.mk.inj (h.aggUnits _ hold _ ht heq)
      exact SameKeys.refl _
    · exact absurd heq.symm (hnew _ ht).1
  · obtain ⟨t, ht, hall⟩ := mem_knownChannels.1 hrc
    obtain ⟨t', ht'⟩ := OrderedMap.mem_values.1 hrc'
    have hknown := CollectiveChannel.allNodesKnown_iff.1 hall p hp
    rcases hkept _ ht' with hold | hnew
    · obtain ⟨-, rfl⟩ := Prod.mk.inj (channel_of_address h ht hold hp hp' hknown hip hqp)
      exact ⟨_, mem_knownChannels.2 ⟨t', ht', hall⟩, SameKeys.refl _⟩
    · have hcommon := h'.fabricQps _ ht' p' hp' (hip ▸ hknown)
      rw [hqp, h.fabricQps _ ht p hp hknown] at hcommon
      exact absurd hcommon (hnew _ ht).2

private theorem sameKeys_updateIn {clientId : Nat} {u : ParticipantUpdate} {c : CollectiveChannel}
    {p : Participant} (hp : c.participants.find? clientId = some p)
    (hkeep : u.ip = p.ip ∧ u.fabricQp = p.fabricQp ∧ pipeOf u.switchPort = pipeOf p.switchPort) :
    SameKeys c (updateIn clientId u c) := by
  refine ⟨rfl, rfl, rfl, ?_⟩
  change ((c.participants.modify clientId u.apply).values).map address = c.members.map address
  rw [OrderedMap.values_modify, CollectiveChannel.members, OrderedMap.values, List.map_map,
    List.map_map]
  refine List.map_congr_left fun e he => ?_
  change address (if e.1 = clientId then u.apply e.2 else e.2) = address e.2
  split
  · rename_i heq
    have hep : e.2 = p := by
      have hmem : (clientId, e.2) ∈ c.participants.entries := by
        rw [← heq]
        exact he
      exact Option.some.inj ((OrderedMap.find?_eq_some_iff.2 hmem).symm.trans hp)
    rw [hep]
    simp [address, ParticipantUpdate.apply, hkeep]
  · rfl

private theorem stable_of_update {tag clientId : Nat} {u : ParticipantUpdate}
    {c : CollectiveChannel} {p : Participant} (h : WellFormed r)
    (h' : WellFormed { r with channels := r.channels.modify tag (updateIn clientId u) })
    (hc : r.channels.find? tag = some c) (hp : c.participants.find? clientId = some p)
    (hkeeps : KeepsKeys r (.updateChannelParticipant tag clientId u)) :
    Stable r.getChannels (r.channels.modify tag (updateIn clientId u)).values := by
  have hcmem := OrderedMap.find?_eq_some_iff.1 hc
  -- the update of the only participant to no address leaves no known participant
  have hforgotten : c.members = [p] ∧ u.ip = 0 → ∀ q ∈ (updateIn clientId u c).members, q.ip = 0 := by
    rintro ⟨hone, hzero⟩ q hq
    obtain ⟨k, q₀, hq₀, rfl⟩ := mem_members_updateIn hq
    have hq₀p : q₀ = p := by
      have hmem : q₀ ∈ c.members := OrderedMap.mem_values.2 ⟨k, hq₀⟩
      rw [hone, List.mem_singleton] at hmem
      exact hmem
    have hkey : k = clientId := by
      have hentries := congrArg List.length hone
      have hlen : c.participants.entries.length = 1 := by
        simpa [CollectiveChannel.members, OrderedMap.values] using hentries
      obtain ⟨e, he⟩ := List.length_eq_one_iff.1 hlen
      have h1 := he ▸ hq₀
      have h2 := he ▸ OrderedMap.find?_eq_some_iff.1 hp
      rw [List.mem_singleton] at h1 h2
      exact congrArg Prod.fst (h1.trans h2.symm)
    rw [if_pos hkey]
    exact hzero
  have hnew : ∀ t' rc', (t', rc') ∈ (r.channels.modify tag (updateIn clientId u)).entries →
      ∃ rc₀, (t', rc₀) ∈ r.channels.entries ∧ rc'.aggUnit = rc₀.aggUnit ∧
        (t' ≠ tag → rc' = rc₀) ∧ (t' = tag → rc₀ = c ∧ rc' = updateIn clientId u c) := by
    intro t' rc' hmem
    obtain ⟨rc₀, hrc₀, rfl⟩ := OrderedMap.mem_modify.1 hmem
    refine ⟨rc₀, hrc₀, ?_, fun hne => if_neg hne, fun heq => ?_⟩
    · split <;> rfl
    · subst heq
      have : rc₀ = c := Option.some.inj ((OrderedMap.find?_eq_some_iff.2 hrc₀).symm.trans hc)
      exact ⟨this, by rw [if_pos rfl, this]⟩
  refine ⟨fun rc hrc rc' hrc' heq => ?_, fun rc hrc q hq rc' hrc' q' hq' hip hqp => ?_,
    distinct_of_wellFormed h'⟩
  · obtain ⟨t, ht, hall⟩ := mem_knownChannels.1 hrc
    obtain ⟨t', ht', hall'⟩ := mem_knownChannels.1 hrc'
    obtain ⟨rc₀, hrc₀, hunit, hother, hsame⟩ := hnew t' rc' ht'
    obtain ⟨rfl, rfl⟩ := Prod.mk.inj (h.aggUnits _ hrc₀ _ ht (hunit.symm.trans heq))
    by_cases htag : t' = tag
    · obtain ⟨rfl, rfl⟩ := hsame htag
      rcases hkeeps rc₀ p hc hall hp with hkeep | hforget
      · exact sameKeys_updateIn hp hkeep
      · have hmem : u.apply p ∈ (updateIn clientId u rc₀).members :=
          OrderedMap.mem_values.2 ⟨clientId, OrderedMap.mem_modify.2
            ⟨p, OrderedMap.find?_eq_some_iff.1 hp, (if_pos rfl).symm⟩⟩
        exact absurd (hforgotten hforget _ hmem) (CollectiveChannel.allNodesKnown_iff.1 hall' _ hmem)
    · rw [hother htag]
      exact SameKeys.refl _
  · obtain ⟨t, ht, hall⟩ := mem_knownChannels.1 hrc
    obtain ⟨t', ht'⟩ := OrderedMap.mem_values.1 hrc'
    obtain ⟨rc₀, hrc₀, -, hother, hsame⟩ := hnew t' rc' ht'
    have hknown := CollectiveChannel.allNodesKnown_iff.1 hall q hq
    have hcommon : rc'.fabricQpCommon = rc.fabricQpCommon := by
      rw [← h'.fabricQps _ ht' q' hq' (hip ▸ hknown), ← h.fabricQps _ ht q hq hknown, hqp]
    by_cases htag : t' = tag
    · obtain ⟨rfl, rfl⟩ := hsame htag
      obtain ⟨rfl, rfl⟩ := Prod.mk.inj (h.commons _ hrc₀ _ ht hcommon)
      rcases hkeeps rc₀ p hc hall hp with hkeep | hforget
      · have hkeys := sameKeys_updateIn hp hkeep
        refine ⟨_, mem_knownChannels.2 ⟨t', ht', ?_⟩, hkeys⟩
        refine CollectiveChannel.allNodesKnown_iff.2 fun x hx => ?_
        have hx' : address x ∈ rc₀.members.map address := by
          rw [← hkeys.addresses]
          exact List.mem_map_of_mem hx
        obtain ⟨y, hy, hxy⟩ := List.mem_map.1 hx'
        have hxip : x.ip = y.ip := (congrArg (fun a => a.1.1) hxy).symm
        rw [hxip]
        exact CollectiveChannel.allNodesKnown_iff.1 hall y hy
      · exact absurd (hip ▸ hforgotten hforget q' hq') hknown
    · obtain rfl := hother htag
      obtain ⟨-, rfl⟩ := Prod.mk.inj (h.commons _ hrc₀ _ ht hcommon)
      exact ⟨_, mem_knownChannels.2 ⟨t', ht', hall⟩, SameKeys.refl _⟩

private structure Consistent (rs : StateRepository × Asic) : Prop where
  wellFormed : WellFormed rs.1
  programmed : Programmed rs.1.getChannels rs.2

private theorem Consistent.called {rs rs' : StateRepository × Asic} {c : Call} (h : Consistent rs)
    (hcalled : Called onStRepoChannels rs c rs') (hpromised : Promised rs.1 c)
    (hkeeps : KeepsKeys rs.1 c) : Consistent rs' := by
  have h' := h.wellFormed.called hpromised hcalled
  cases hcalled with
  | @added c s' hnew hnotify =>
      refine ⟨h', (onStRepoChannels_ok hnotify).programmed h.programmed
        (stable_of_subset h.wellFormed h' fun e he => ?_)⟩
      rcases (OrderedMap.mem_insert hnew).1 he with rfl | hold
      · exact Or.inr fun e₀ he₀ => hpromised.1 e₀.2 (OrderedMap.mem_values.2 ⟨e₀.1, he₀⟩)
      · exact Or.inl hold
  | updated hc hp hchanges hnotify =>
      exact ⟨h', (onStRepoChannels_ok hnotify).programmed h.programmed
        (stable_of_update h.wellFormed h' hc hp hkeeps)⟩
  | unchanged _ _ _ => exact h
  | removed hnotify =>
      exact ⟨h', (onStRepoChannels_ok hnotify).programmed h.programmed
        (stable_of_subset h.wellFormed h' fun e he => Or.inl (OrderedMap.mem_erase.1 he).1)⟩

theorem along_afterCall {P : StateRepository → Call → Prop} {rs : StateRepository × Asic}
    {cs : List Call}
    (h : Along (fun rs c _ => (call onStRepoChannels rs c).isOk = true ∧ P rs.1 c) rs
      (runOf (afterCall onStRepoChannels) rs cs)) :
    Along (fun rs c rs' => call onStRepoChannels rs c = .ok rs' ∧ P rs.1 c) rs
      (runOf (afterCall onStRepoChannels) rs cs) :=
  h.of_runOf fun _ _ hstep => ⟨call_eq_afterCall _ hstep.1, hstep.2⟩

/-- A daemon that has been set up. -/
def startup (baseMac : MacAddr) (ip : IPv4Addr) : StateRepository × Asic :=
  (StateRepository.initial baseMac ip,
    initialSetup (StateRepository.initial baseMac ip).getCollectivesModuleMacAddr)

/-- The tables are those of a first notification about the channels of the repository. -/
def MatchesFresh (mac : MacAddr) (rs : StateRepository × Asic) : Prop :=
  ∃ fresh, onStRepoChannels rs.1.getChannels (initialSetup mac) = .ok fresh ∧ SameTables rs.2 fresh

/-- **History independence.** In a run of calls none of which moves a participant of a programmed
channel, the tables always match those of a first notification. -/
theorem run_matchesFresh (baseMac : MacAddr) (ip : IPv4Addr)
    (run : List (Call × (StateRepository × Asic)))
    (hrun : Along (fun rs c rs' => call onStRepoChannels rs c = .ok rs' ∧ Promised rs.1 c ∧
      KeepsKeys rs.1 c) (startup baseMac ip) run) (mac : MacAddr) :
    ∀ x ∈ run, MatchesFresh mac x.2 := by
  have hstart : Consistent (startup baseMac ip) :=
    ⟨wellFormed_initial baseMac ip, programmed_initialSetup _⟩
  intro x hx
  have hx := hrun.invariant (I := Consistent) (fun rs c rs' h hstep =>
    h.called (call_ok hstep.1) hstep.2.1 hstep.2.2) hstart x hx
  obtain ⟨fresh, hfresh⟩ := exists_onStRepoChannels_initialSetup hx.programmed.fits mac
  exact ⟨fresh, hfresh, hx.programmed.sameTables
    (programmed_of_initialSetup (distinct_of_wellFormed hx.wellFormed) hfresh)⟩

/-! ### Calls on a daemon -/

/-- The states of a daemon over some calls. -/
abbrev runOfCalls (cs : List Call) : List (Call × (StateRepository × Asic)) :=
  runOf (afterCall onStRepoChannels) (startup 0 1) cs

namespace Relocation

def channel (tag : Nat) (aggUnit : BitVec 16) (clientIds : List Nat) : CollectiveChannel where
  tag := tag
  fabricIp := 1
  fabricQpCommon := BitVec.ofNat 16 tag
  fabricMac := 1024
  aggUnit := aggUnit
  participants := clientIds.foldl (fun ps cid => ps.insert cid { clientId := cid }) OrderedMap.empty

def register (tag clientId : Nat) (ip : IPv4Addr) (localQp : IbQp) (mac : MacAddr) (port : PortId) :
    Call :=
  .updateChannelParticipant tag clientId ⟨ip, localQp, mac, port, BitVec.ofNat 24 (tag * 256)⟩

/-- Two channels, one of them on both pipes. A participant of it registers again from the same pipe,
with another port, local QP and MAC. The other channel goes, and a third one takes its unit. -/
def keeping : List Call :=
  [.addChannel (channel 1 0 [7, 8]), .addChannel (channel 2 1 [7]), register 1 7 10 5 6 0,
    register 1 8 11 5 7 384, register 2 7 10 5 6 0, register 1 7 10 9 8 4, .removeChannel 2,
    .addChannel (channel 3 1 [7]), register 3 7 12 5 9 8]

theorem keeping_matchesFresh :
    (runOfCalls keeping).map (fun x => (knownChannels x.2.1.getChannels).map CollectiveChannel.tag) =
      [[], [], [], [1], [1, 2], [1, 2], [1], [1], [1, 3]] ∧
    ∀ x ∈ runOfCalls keeping, MatchesFresh 1024 x.2 := by
  have hrun : Along (fun rs c rs' => call onStRepoChannels rs c = .ok rs' ∧
      (Promised rs.1 c ∧ KeepsKeys rs.1 c)) (startup 0 1) (runOfCalls keeping) :=
    along_afterCall (P := fun r c => Promised r c ∧ KeepsKeys r c) (by decide +kernel)
  exact ⟨by decide +kernel, run_matchesFresh 0 1 _ hrun 1024⟩

/-- The only participant of a channel registers, and once more after it got another address. -/
def moving : List Call := [.addChannel (channel 1 0 [7]), register 1 7 10 5 6 0, register 1 7 11 5 6 0]

/-- The entry of the old address is still there. -/
theorem moving_not_matchesFresh :
    Along (fun rs c rs' => call onStRepoChannels rs c = .ok rs' ∧ Promised rs.1 c) (startup 0 1)
      (runOfCalls moving) ∧
    ¬ ∀ x ∈ runOfCalls moving, MatchesFresh 1024 x.2 := by
  have hrun : Along (fun rs c rs' => call onStRepoChannels rs c = .ok rs' ∧ Promised rs.1 c)
      (startup 0 1) (runOfCalls moving) := along_afterCall (by decide +kernel)
  refine ⟨hrun, fun hmatches => ?_⟩
  let oldKey : UnitSelectorKey := ⟨Ternary.exact 10, 1, ⟨0x100, 0xffffff⟩, Ternary.any⟩
  have hold : ∃ x ∈ runOfCalls moving,
      (oldKey, ⟨0, 1, 0⟩) ∈ (x.2.2.pipes 0).unitSelector.entries ∧
        (onStRepoChannels x.2.1.getChannels (initialSetup 1024)).toOption.all (fun fresh =>
          ((fresh.pipes 0).unitSelector.lookup oldKey).isNone) = true := by
    decide +kernel
  obtain ⟨x, hx, hmem, hnone⟩ := hold
  obtain ⟨fresh, hfresh, hsame⟩ := hmatches x hx
  rw [hfresh] at hnone
  have hlookup := (FinTable.mem_entries_iff ..).1 ((hsame.unitSelector 0 _).1 hmem)
  change ((fresh.pipes 0).unitSelector.lookup oldKey).isNone = true at hnone
  rw [hlookup] at hnone
  contradiction

end Relocation

end Stable

end AsicDriver

end Mpitofino
