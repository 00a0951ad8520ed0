import Mpitofino.Dataplane.Headers
import Mpitofino.Library.Fallible
import Mpitofino.Library.OrderedMap

/-!
# The state repository

The collective channels of the switch, by tag, each with its participants by client id, and the two
allocators. A participant is entered without an address when its channel is created and is known once
an update gave it one. `type` of a channel is left out, no modelled function reads it.
-/

namespace Mpitofino

structure Participant where
  clientId : Nat
  ip : IPv4Addr := 0
  localQp : IbQp := 0
  fabricQp : IbQp := 0
  mac : MacAddr := 0
  switchPort : PortId := 0
  deriving DecidableEq

structure CollectiveChannel where
  tag : Nat
  fabricIp : IPv4Addr
  fabricQpCommon : BitVec 16
  fabricMac : MacAddr
  aggUnit : BitVec 16
  participants : OrderedMap Nat Participant

namespace CollectiveChannel

def members (c : CollectiveChannel) : List Participant := c.participants.values

def allNodesKnown (c : CollectiveChannel) : Bool := c.members.all fun p => p.ip ≠ 0

theorem allNodesKnown_iff {c : CollectiveChannel} :
    c.allNodesKnown = true ↔ ∀ p ∈ c.members, p.ip ≠ 0 := by
  simp [allNodesKnown]

end CollectiveChannel

/-- The arguments of `update_channel_participant` that describe the participant. -/
structure ParticipantUpdate where
  ip : IPv4Addr
  localQp : IbQp
  mac : MacAddr
  switchPort : PortId
  fabricQp : IbQp
  deriving DecidableEq

namespace ParticipantUpdate

def apply (u : ParticipantUpdate) (p : Participant) : Participant :=
  { p with
    ip := u.ip
    localQp := u.localQp
    mac := u.mac
    switchPort := u.switchPort
    fabricQp := u.fabricQp }

/-- The comparison that decides whether the subscribers are notified. -/
def changes (u : ParticipantUpdate) (p : Participant) : Bool :=
  p.ip != u.ip || p.localQp != u.localQp || p.mac != u.mac || p.switchPort != u.switchPort ||
    p.fabricQp != u.fabricQp

theorem apply_of_not_changes {u : ParticipantUpdate} {p : Participant} (h : u.changes p = false) :
    u.apply p = p := by
  simp only [changes, Bool.or_eq_false_iff, bne_eq_false_iff_eq] at h
  obtain ⟨⟨⟨⟨hip, hqp⟩, hmac⟩, hport⟩, hfabric⟩ := h
  rw [apply, ← hip, ← hqp, ← hmac, ← hport, ← hfabric]

end ParticipantUpdate

structure StateRepository where
  channels : OrderedMap Nat CollectiveChannel
  nextCollQpCommon : BitVec 16
  baseMacAddr : MacAddr
  collectivesModuleIpAddr : IPv4Addr

namespace StateRepository

def initial (baseMacAddr : MacAddr) (collectivesModuleIpAddr : IPv4Addr) : StateRepository where
  channels := OrderedMap.empty
  nextCollQpCommon := 0
  baseMacAddr := baseMacAddr
  collectivesModuleIpAddr := collectivesModuleIpAddr

def getCollectivesModuleMacAddr (r : StateRepository) : MacAddr := r.baseMacAddr + 1024

def getChannel (r : StateRepository) (tag : Nat) : Option CollectiveChannel := r.channels.find? tag

def getChannels (r : StateRepository) : List CollectiveChannel := r.channels.values

def addChannel (r : StateRepository) (c : CollectiveChannel) : Except String StateRepository :=
  match r.channels.find? c.tag with
  | some _ => .error "channel exists already"
  | none => .ok { r with channels := r.channels.insert c.tag c }

/-- The channel after the update of a participant. -/
def updateIn (clientId : Nat) (u : ParticipantUpdate) (c : CollectiveChannel) : CollectiveChannel :=
  { c with participants := c.participants.modify clientId u.apply }

/-- The new repository, and whether the subscribers are notified of it. -/
def updateChannelParticipant (r : StateRepository) (tag clientId : Nat) (u : ParticipantUpdate) :
    Except String (StateRepository × Bool) :=
  match r.channels.find? tag with
  | none => .error "No such channel"
  | some c =>
      match c.participants.find? clientId with
      | none => .error "No such participant in channel"
      | some p =>
          if u.changes p then
            .ok ({ r with channels := r.channels.modify tag (updateIn clientId u) }, true)
          else .ok (r, false)

def removeChannel (r : StateRepository) (tag : Nat) : Except String StateRepository :=
  match r.channels.find? tag with
  | none => .error "No such channel"
  | some _ => .ok { r with channels := r.channels.erase tag }

def qpCommonTaken (r : StateRepository) (qpCommon : BitVec 16) : Bool :=
  r.getChannels.any fun c => c.fabricQpCommon = qpCommon

/-- The loop of `get_free_coll_qp_common`, with the two variables it changes. -/
def freeCollQpCommonLoop (r : StateRepository) (next : BitVec 16) (cntWraps : Nat) :
    Except String (BitVec 16 × BitVec 16) :=
  if cntWraps < 2 then
    let wrap := next < 1
    let qpCommon := if wrap then 1 else next
    if r.qpCommonTaken qpCommon then
      freeCollQpCommonLoop r (qpCommon + 1) (if wrap then cntWraps + 1 else cntWraps)
    else .ok (qpCommon, qpCommon + 1)
  else .error "No free fabric QP num common part for collectives"
termination_by (2 - cntWraps) * 65536 + (65536 - next.toNat) % 65536
decreasing_by
  have hlt := next.isLt
  by_cases hwrap : next = 0#16
  · subst hwrap
    simp
    omega
  · have hnext : next.toNat ≠ 0 := by simpa [BitVec.toNat_eq] using hwrap
    simp [hwrap]
    omega

def getFreeCollQpCommon (r : StateRepository) : Except String (StateRepository × BitVec 16) :=
  match r.freeCollQpCommonLoop r.nextCollQpCommon 0 with
  | .ok (qpCommon, next) => .ok ({ r with nextCollQpCommon := next }, qpCommon)
  | .error e => .error e

def getFreeAggUnit (r : StateRepository) : Except String (BitVec 16) :=
  match ((List.range 256).map (BitVec.ofNat 16)).find? fun unit =>
      !r.getChannels.any fun c => c.aggUnit = unit with
  | some unit => .ok unit
  | none => .error "No free aggregation unit"

/-! ### Subscribers -/

section Notify

variable {σ : Type} (notify : List CollectiveChannel → σ → Except String σ)

def notifySubscribers (r : StateRepository) (s : σ) : Except String (StateRepository × σ) := do
  let s' ← notify r.getChannels s
  return (r, s')

/-- The calls that change the channels, on a repository with a subscriber. -/
inductive Call where
  | addChannel (c : CollectiveChannel)
  | updateChannelParticipant (tag clientId : Nat) (u : ParticipantUpdate)
  | removeChannel (tag : Nat)

def call (rs : StateRepository × σ) : Call → Except String (StateRepository × σ)
  | .addChannel c => do
      let r ← rs.1.addChannel c
      notifySubscribers notify r rs.2
  | .updateChannelParticipant tag clientId u => do
      let (r, notified) ← rs.1.updateChannelParticipant tag clientId u
      if notified then notifySubscribers notify r rs.2 else return (r, rs.2)
  | .removeChannel tag => do
      let r ← rs.1.removeChannel tag
      notifySubscribers notify r rs.2

/-- The repository and its subscriber after a call that ends normally. -/
def afterCall (rs : StateRepository × σ) (c : Call) : StateRepository × σ :=
  match call notify rs c with
  | .ok rs' => rs'
  | .error _ => rs

theorem call_eq_afterCall {rs : StateRepository × σ} {c : Call}
    (h : (call notify rs c).isOk = true) : call notify rs c = .ok (afterCall notify rs c) := by
  cases hcall : call notify rs c with
  | error message =>
      rw [hcall] at h
      contradiction
  | ok rs' => rw [afterCall, hcall]

end Notify

/-! ### What the operations do to the channels -/

theorem addChannel_ok {r r' : StateRepository} {c : CollectiveChannel}
    (h : r.addChannel c = .ok r') :
    r.channels.find? c.tag = none ∧ r' = { r with channels := r.channels.insert c.tag c } := by
  rw [addChannel] at h
  split at h
  · contradiction
  · rename_i hnew
    exact ⟨hnew, (Except.ok.inj h).symm⟩

theorem removeChannel_ok {r r' : StateRepository} {tag : Nat} (h : r.removeChannel tag = .ok r') :
    r' = { r with channels := r.channels.erase tag } := by
  rw [removeChannel] at h
  split at h
  · contradiction
  · exact (Except.ok.inj h).symm

theorem updateChannelParticipant_ok {r r' : StateRepository} {tag clientId : Nat}
    {u : ParticipantUpdate} {notified : Bool}
    (h : r.updateChannelParticipant tag clientId u = .ok (r', notified)) :
    ∃ c p, r.channels.find? tag = some c ∧ c.participants.find? clientId = some p ∧
      notified = u.changes p ∧
      (notified = true →
        r' = { r with channels := r.channels.modify tag (updateIn clientId u) }) ∧
      (notified = false → r' = r) := by
  rw [updateChannelParticipant] at h
  split at h
  · contradiction
  · rename_i c hc
    split at h
    · contradiction
    · rename_i p hp
      refine ⟨c, p, hc, hp, ?_⟩
      split at h
      · rename_i hchanges
        obtain ⟨rfl, rfl⟩ := Prod.mk.inj (Except.ok.inj h)
        exact ⟨hchanges.symm, fun _ => rfl, fun hfalse => by contradiction⟩
      · rename_i hchanges
        obtain ⟨rfl, rfl⟩ := Prod.mk.inj (Except.ok.inj h)
        exact ⟨(Bool.eq_false_iff.2 hchanges).symm, fun htrue => by contradiction, fun _ => rfl⟩

section Notify

variable {σ : Type} {notify : List CollectiveChannel → σ → Except String σ}

/-- What a call that ends normally did. -/
inductive Called (notify : List CollectiveChannel → σ → Except String σ)
    (rs : StateRepository × σ) : Call → StateRepository × σ → Prop where
  | added {c : CollectiveChannel} {s' : σ} (hnew : rs.1.channels.find? c.tag = none)
      (hnotify : notify (rs.1.channels.insert c.tag c).values rs.2 = .ok s') :
      Called notify rs (.addChannel c)
        ({ rs.1 with channels := rs.1.channels.insert c.tag c }, s')
  | updated {tag clientId : Nat} {u : ParticipantUpdate} {c : CollectiveChannel} {p : Participant}
      {s' : σ} (hc : rs.1.channels.find? tag = some c)
      (hp : c.participants.find? clientId = some p) (hchanges : u.changes p = true)
      (hnotify : notify (rs.1.channels.modify tag (updateIn clientId u)).values rs.2 = .ok s') :
      Called notify rs (.updateChannelParticipant tag clientId u)
        ({ rs.1 with channels := rs.1.channels.modify tag (updateIn clientId u) }, s')
  | unchanged {tag clientId : Nat} {u : ParticipantUpdate} {c : CollectiveChannel} {p : Participant}
      (hc : rs.1.channels.find? tag = some c) (hp : c.participants.find? clientId = some p)
      (hchanges : u.changes p = false) :
      Called notify rs (.updateChannelParticipant tag clientId u) rs
  | removed {tag : Nat} {s' : σ}
      (hnotify : notify (rs.1.channels.erase tag).values rs.2 = .ok s') :
      Called notify rs (.removeChannel tag)
        ({ rs.1 with channels := rs.1.channels.erase tag }, s')

theorem Called.channels_update {rs rs' : StateRepository × σ} {tag clientId : Nat}
    {u : ParticipantUpdate} (h : Called notify rs (.updateChannelParticipant tag clientId u) rs') :
    ∃ c p, rs.1.channels.find? tag = some c ∧ c.participants.find? clientId = some p ∧
      rs'.1.channels = rs.1.channels.modify tag (updateIn clientId u) := by
  cases h with
  | updated hc hp _ _ => exact ⟨_, _, hc, hp, rfl⟩
  | unchanged hc hp hchanges =>
      rename_i c p
      refine ⟨c, p, hc, hp, (OrderedMap.modify_eq_self fun c' hc' => ?_).symm⟩
      obtain rfl := Option.some.inj (hc.symm.trans (OrderedMap.find?_eq_some_iff.2 hc'))
      have hsame : c.participants.modify clientId u.apply = c.participants := by
        refine OrderedMap.modify_eq_self fun p' hp' => ?_
        obtain rfl := Option.some.inj (hp.symm.trans (OrderedMap.find?_eq_some_iff.2 hp'))
        exact ParticipantUpdate.apply_of_not_changes hchanges
      rw [updateIn, hsame]

theorem notifySubscribers_ok {r : StateRepository} {s : σ} {rs' : StateRepository × σ}
    (h : notifySubscribers notify r s = .ok rs') :
    notify r.getChannels s = .ok rs'.2 ∧ rs'.1 = r := by
  obtain ⟨s', hs', h⟩ := Fallible.bind_eq_ok.1 h
  obtain rfl := Except.ok.inj h
  exact ⟨hs', rfl⟩

theorem call_ok {rs rs' : StateRepository × σ} {c : Call} (h : call notify rs c = .ok rs') :
    Called notify rs c rs' := by
  obtain ⟨r', s'⟩ := rs'
  cases c with
  | addChannel c =>
      obtain ⟨r, hadd, h⟩ := Fallible.bind_eq_ok.1 h
      obtain ⟨hnew, rfl⟩ := addChannel_ok hadd
      obtain ⟨hnotify, hr⟩ := notifySubscribers_ok h
      subst hr
      exact .added hnew hnotify
  | updateChannelParticipant tag clientId u =>
      obtain ⟨⟨r, notified⟩, hupdate, h⟩ := Fallible.bind_eq_ok.1 h
      obtain ⟨c, p, hc, hp, rfl, hchanged, hsame⟩ := updateChannelParticipant_ok hupdate
      cases hchanges : u.changes p with
      | true =>
          obtain rfl := hchanged hchanges
          rw [hchanges] at h
          obtain ⟨hnotify, hr⟩ := notifySubscribers_ok h
          subst hr
          exact .updated hc hp hchanges hnotify
      | false =>
          obtain rfl := hsame hchanges
          rw [hchanges] at h
          obtain ⟨rfl, rfl⟩ := Prod.mk.inj (Except.ok.inj h)
          exact .unchanged hc hp hchanges
  | removeChannel tag =>
      obtain ⟨r, hremove, h⟩ := Fallible.bind_eq_ok.1 h
      obtain rfl := removeChannel_ok hremove
      obtain ⟨hnotify, hr⟩ := notifySubscribers_ok h
      subst hr
      exact .removed hnotify

end Notify

/-! ### Well-formed repositories -/

/-- The part of a fabric QP that belongs to the channel. -/
def commonOf (fabricQp : IbQp) : BitVec 16 := fabricQp.extractLsb' 8 16

/-- Units and common QP parts are not shared, and a known participant's fabric QP is one of its
channel. -/
structure WellFormed (r : StateRepository) : Prop where
  aggUnits : ∀ e ∈ r.channels.entries, ∀ e' ∈ r.channels.entries, e.2.aggUnit = e'.2.aggUnit → e = e'
  commons : ∀ e ∈ r.channels.entries, ∀ e' ∈ r.channels.entries,
    e.2.fabricQpCommon = e'.2.fabricQpCommon → e = e'
  fabricQps : ∀ e ∈ r.channels.entries, ∀ p ∈ e.2.members, p.ip ≠ 0 →
    commonOf p.fabricQp = e.2.fabricQpCommon

/-- What the callers of the repository see to. -/
def Promised (r : StateRepository) : Call → Prop
  | .addChannel c =>
      (∀ c' ∈ r.getChannels, c'.aggUnit ≠ c.aggUnit ∧ c'.fabricQpCommon ≠ c.fabricQpCommon) ∧
        ∀ p ∈ c.members, p.ip ≠ 0 → commonOf p.fabricQp = c.fabricQpCommon
  | .updateChannelParticipant tag _ u =>
      ∀ c, r.getChannel tag = some c → commonOf u.fabricQp = c.fabricQpCommon
  | .removeChannel _ => True

instance (r : StateRepository) : ∀ c, Decidable (Promised r c)
  | .addChannel _ => inferInstanceAs (Decidable (_ ∧ _))
  | .updateChannelParticipant tag _ u => inferInstanceAs
      (Decidable (∀ c ∈ r.getChannel tag, commonOf u.fabricQp = c.fabricQpCommon))
  | .removeChannel _ => isTrue trivial

theorem WellFormed.congr {r r' : StateRepository} (h : WellFormed r)
    (hsame : r'.channels = r.channels) : WellFormed r' := by
  obtain ⟨haggUnits, hcommons, hfabricQps⟩ := h
  rw [← hsame] at haggUnits hcommons hfabricQps
  exact ⟨haggUnits, hcommons, hfabricQps⟩

theorem wellFormed_initial (mac : MacAddr) (ip : IPv4Addr) : WellFormed (initial mac ip) :=
  ⟨fun _ h => by contradiction, fun _ h => by contradiction, fun _ h => by contradiction⟩

theorem mem_members_updateIn {clientId : Nat} {u : ParticipantUpdate} {c : CollectiveChannel}
    {p' : Participant} (h : p' ∈ (updateIn clientId u c).members) :
    ∃ k p, (k, p) ∈ c.participants.entries ∧ p' = if k = clientId then u.apply p else p := by
  obtain ⟨k, hk⟩ := OrderedMap.mem_values.1 h
  obtain ⟨p, hp, rfl⟩ := OrderedMap.mem_modify.1 hk
  exact ⟨k, p, hp, rfl⟩

theorem WellFormed.modify {r : StateRepository} {tag clientId : Nat} {u : ParticipantUpdate}
    (h : WellFormed r)
    (hu : ∀ c, r.getChannel tag = some c → commonOf u.fabricQp = c.fabricQpCommon) :
    WellFormed { r with channels := r.channels.modify tag (updateIn clientId u) } := by
  have hold : ∀ e ∈ (r.channels.modify tag (updateIn clientId u)).entries,
      ∃ c, (e.1, c) ∈ r.channels.entries ∧
        e.2 = if e.1 = tag then updateIn clientId u c else c := fun e he =>
    OrderedMap.mem_modify.1 he
  have hsame : ∀ (t : Nat) (c : CollectiveChannel),
      (if t = tag then updateIn clientId u c else c).aggUnit = c.aggUnit ∧
        (if t = tag then updateIn clientId u c else c).fabricQpCommon = c.fabricQpCommon := by
    intro t c
    split <;> exact ⟨rfl, rfl⟩
  refine ⟨fun e he e' he' heq => ?_, fun e he e' he' heq => ?_, fun e he p hp hknown => ?_⟩
  · obtain ⟨c, hc, hec⟩ := hold e he
    obtain ⟨c', hc', hec'⟩ := hold e' he'
    rw [hec, hec', (hsame _ _).1, (hsame _ _).1] at heq
    obtain ⟨htag, rfl⟩ := Prod.mk.inj (h.aggUnits _ hc _ hc' heq)
    exact Prod.ext htag (by rw [hec, hec', htag])
  · obtain ⟨c, hc, hec⟩ := hold e he
    obtain ⟨c', hc', hec'⟩ := hold e' he'
    rw [hec, hec', (hsame _ _).2, (hsame _ _).2] at heq
    obtain ⟨htag, rfl⟩ := Prod.mk.inj (h.commons _ hc _ hc' heq)
    exact Prod.ext htag (by rw [hec, hec', htag])
  · obtain ⟨c, hc, hec⟩ := hold e he
    rw [hec, (hsame _ _).2]
    rw [hec] at hp
    split at hp
    · rename_i htag
      obtain ⟨k, q, hq, rfl⟩ := mem_members_updateIn hp
      split
      · exact hu c (OrderedMap.find?_eq_some_iff.2 (htag ▸ hc))
      · rename_i hk
        rw [if_neg hk] at hknown
        exact h.fabricQps _ hc q (OrderedMap.mem_values.2 ⟨k, hq⟩) hknown
    · exact h.fabricQps _ hc p hp hknown

theorem WellFormed.called {σ : Type} {notify : List CollectiveChannel → σ → Except String σ}
    {rs rs' : StateRepository × σ} {c : Call} (h : WellFormed rs.1) (hc : Promised rs.1 c)
    (hcalled : Called notify rs c rs') : WellFormed rs'.1 := by
  cases hcalled with
  | @added c s' hnew hnotify =>
      obtain ⟨hfresh, hqps⟩ := hc
      have hmem : ∀ e ∈ (rs.1.channels.insert c.tag c).entries,
          e = (c.tag, c) ∨ e ∈ rs.1.channels.entries := fun e he => (OrderedMap.mem_insert hnew).1 he
      have hother : ∀ e ∈ rs.1.channels.entries,
          e.2.aggUnit ≠ c.aggUnit ∧ e.2.fabricQpCommon ≠ c.fabricQpCommon := fun e he =>
        hfresh e.2 (OrderedMap.mem_values.2 ⟨e.1, he⟩)
      refine ⟨fun e he e' he' heq => ?_, fun e he e' he' heq => ?_, fun e he p hp hknown => ?_⟩
      · rcases hmem e he with rfl | he <;> rcases hmem e' he' with rfl | he'
        · rfl
        · exact absurd heq.symm (hother e' he').1
        · exact absurd heq (hother e he).1
        · exact h.aggUnits e he e' he' heq
      · rcases hmem e he with rfl | he <;> rcases hmem e' he' with rfl | he'
        · rfl
        · exact absurd heq.symm (hother e' he').2
        · exact absurd heq (hother e he).2
        · exact h.commons e he e' he' heq
      · rcases hmem e he with rfl | he
        · exact hqps p hp hknown
        · exact h.fabricQps e he p hp hknown
  | updated _ _ _ _ => exact h.modify hc
  | unchanged _ _ _ => exact h
  | @removed tag s' hnotify =>
      have hmem : ∀ e ∈ (rs.1.channels.erase tag).entries, e ∈ rs.1.channels.entries := fun e he =>
        (OrderedMap.mem_erase.1 he).1
      exact ⟨fun e he e' he' => h.aggUnits e (hmem e he) e' (hmem e' he'),
        fun e he e' he' => h.commons e (hmem e he) e' (hmem e' he'),
        fun e he => h.fabricQps e (hmem e he)⟩

/-! ### The allocators -/

theorem getFreeAggUnit_ok {r : StateRepository} {aggUnit : BitVec 16}
    (h : r.getFreeAggUnit = .ok aggUnit) :
    aggUnit.toNat < 256 ∧ ∀ c ∈ r.getChannels, c.aggUnit ≠ aggUnit := by
  rw [getFreeAggUnit] at h
  split at h
  · rename_i unit hfind
    obtain rfl := Except.ok.inj h
    obtain ⟨n, hn, rfl⟩ := List.mem_map.1 (List.mem_of_find?_eq_some hfind)
    have hlt := List.mem_range.1 hn
    refine ⟨?_, by simpa using List.find?_some hfind⟩
    rw [BitVec.toNat_ofNat, Nat.mod_eq_of_lt (by omega)]
    exact hlt
  · contradiction

/-- The unit handed out is the first free one, so those below it are taken. -/
theorem getFreeAggUnit_le {r : StateRepository} {aggUnit : BitVec 16}
    (h : r.getFreeAggUnit = .ok aggUnit) : aggUnit.toNat ≤ r.getChannels.length := by
  rw [getFreeAggUnit] at h
  split at h
  · rename_i unit hfind
    obtain rfl := Except.ok.inj h
    obtain ⟨-, n, hn, rfl, hbefore⟩ := List.find?_eq_some_iff_getElem.1 hfind
    rw [List.length_map, List.length_range] at hn
    have htaken : List.range n ⊆ r.getChannels.map fun c => c.aggUnit.toNat := by
      intro k hk
      have hlt := List.mem_range.1 hk
      have hany := hbefore k hlt
      simp only [List.getElem_map, List.getElem_range, Bool.not_not, List.any_eq_true,
        decide_eq_true_eq] at hany
      obtain ⟨c, hc, hunit⟩ := hany
      refine List.mem_map.2 ⟨c, hc, ?_⟩
      rw [hunit, BitVec.toNat_ofNat, Nat.mod_eq_of_lt (by omega)]
    have hle := (List.nodup_range.subperm htaken).length_le
    rw [List.length_range, List.length_map] at hle
    rw [List.getElem_map, List.getElem_range, BitVec.toNat_ofNat, Nat.mod_eq_of_lt (by omega)]
    exact hle
  · contradiction

theorem freeCollQpCommonLoop_ok {r : StateRepository} {next next' qpCommon : BitVec 16}
    {cntWraps : Nat} (h : r.freeCollQpCommonLoop next cntWraps = .ok (qpCommon, next')) :
    qpCommon ≠ 0 ∧ r.qpCommonTaken qpCommon = false := by
  induction next, cntWraps using freeCollQpCommonLoop.induct r with
  | case1 next cntWraps hwraps wrap candidate htaken ih =>
      rw [freeCollQpCommonLoop, if_pos hwraps] at h
      simp only [show (if next < 1 then (1 : BitVec 16) else next) = candidate from rfl, htaken,
        if_true] at h
      exact ih h
  | case2 next cntWraps hwraps wrap candidate htaken =>
      rw [freeCollQpCommonLoop, if_pos hwraps] at h
      simp only [show (if next < 1 then (1 : BitVec 16) else next) = candidate from rfl, htaken] at h
      obtain ⟨rfl, -⟩ := Prod.mk.inj (Except.ok.inj h)
      refine ⟨?_, Bool.eq_false_iff.2 htaken⟩
      change (if next < 1 then (1 : BitVec 16) else next) ≠ 0
      split
      · decide
      · rename_i hnext
        bv_omega
  | case3 next cntWraps hwraps =>
      rw [freeCollQpCommonLoop, if_neg hwraps] at h
      contradiction

/-- The loop fails only after it has seen every value: those from where it starts before it wraps for
the first time, and all of them before it does again. -/
theorem freeCollQpCommonLoop_error {r : StateRepository} {next : BitVec 16} {cntWraps : Nat}
    {message : String} (h : r.freeCollQpCommonLoop next cntWraps = .error message) :
    (cntWraps = 0 → ∀ v ≠ 0, r.qpCommonTaken v = true) ∧
      (cntWraps = 1 → next ≠ 0 → ∀ v, next ≤ v → r.qpCommonTaken v = true) := by
  induction next, cntWraps using freeCollQpCommonLoop.induct r with
  | case1 next cntWraps hwraps wrap candidate htaken ih =>
      rw [freeCollQpCommonLoop, if_pos hwraps] at h
      simp only [show (if next < 1 then (1 : BitVec 16) else next) = candidate from rfl, htaken,
        if_true] at h
      obtain ⟨hall, hfrom⟩ := ih h
      by_cases hnext : next = 0
      · subst hnext
        have hcandidate : candidate = 1 := rfl
        have hwrap : wrap := by decide
        rw [dif_pos hwrap, hcandidate] at hfrom
        refine ⟨fun hcnt v hv => ?_, fun _ hzero => absurd rfl hzero⟩
        by_cases hone : v = 1
        · rwa [hone, ← hcandidate]
        · exact hfrom (by omega) (by decide) v (by bv_omega)
      · have hwrap : ¬ wrap := by
          change ¬ next < 1
          bv_omega
        have hcandidate : candidate = next := dif_neg hwrap
        rw [dif_neg hwrap] at hall hfrom
        rw [hcandidate] at hfrom htaken
        refine ⟨hall, fun hcnt _ v hle => ?_⟩
        by_cases heq : v = next
        · rwa [heq]
        · exact hfrom hcnt (by bv_omega) v (by bv_omega)
  | case2 next cntWraps hwraps wrap candidate htaken =>
      rw [freeCollQpCommonLoop, if_pos hwraps] at h
      simp only [show (if next < 1 then (1 : BitVec 16) else next) = candidate from rfl, htaken] at h
      contradiction
  | case3 next cntWraps hwraps =>
      exact ⟨fun h => by omega, fun h => by omega⟩

theorem getFreeCollQpCommon_ne_zero {r r' : StateRepository} {qpCommon : BitVec 16}
    (h : r.getFreeCollQpCommon = .ok (r', qpCommon)) : qpCommon ≠ 0 := by
  rw [getFreeCollQpCommon] at h
  split at h
  · rename_i qp next hloop
    obtain ⟨rfl, rfl⟩ := Prod.mk.inj (Except.ok.inj h)
    exact (freeCollQpCommonLoop_ok hloop).1
  · contradiction

/-- The allocator fails only when every value is taken. -/
theorem getFreeCollQpCommon_error {r : StateRepository} {message : String}
    (h : r.getFreeCollQpCommon = .error message) :
    ∀ v ≠ 0, ∃ c ∈ r.getChannels, c.fabricQpCommon = v := by
  intro v hv
  rw [getFreeCollQpCommon] at h
  split at h
  · contradiction
  · rename_i hloop
    simpa [qpCommonTaken] using (freeCollQpCommonLoop_error hloop).1 rfl v hv

theorem getFreeCollQpCommon_ok {r r' : StateRepository} {qpCommon : BitVec 16}
    (h : r.getFreeCollQpCommon = .ok (r', qpCommon)) :
    r'.channels = r.channels ∧ ∀ c ∈ r.getChannels, c.fabricQpCommon ≠ qpCommon := by
  rw [getFreeCollQpCommon] at h
  split at h
  · rename_i qp next hloop
    obtain ⟨rfl, rfl⟩ := Prod.mk.inj (Except.ok.inj h)
    exact ⟨rfl, by simpa [qpCommonTaken] using (freeCollQpCommonLoop_ok hloop).2⟩
  · contradiction

end StateRepository

end Mpitofino
