import Mpitofino.Control.FabricQps

/-!
# Units and QP numbers of channels

Every channel the agent creates gets a unit below 256 and a common QP part other than 0 that no other
channel has, and keeps them. The allocator of the common parts finds one as long as there is one.
-/

namespace Mpitofino

namespace Agent

open StateRepository (WellFormed updateIn)

variable {σ : Type} {notify : List CollectiveChannel → σ → Except String σ} {a a' : Agent σ}

def InRange (r : StateRepository) : Prop :=
  ∀ e ∈ r.channels.entries, e.2.aggUnit.toNat < 256 ∧ e.2.fabricQpCommon ≠ 0

theorem allocateChannel_inRange {r r' : StateRepository} {msg : GetChannel} {c : CollectiveChannel}
    (h : allocateChannel r msg = .ok (r', c)) : c.aggUnit.toNat < 256 ∧ c.fabricQpCommon ≠ 0 := by
  obtain ⟨⟨r₁, fabricQpCommon⟩, hqp, h⟩ := Fallible.bind_eq_ok.1 h
  obtain ⟨aggUnit, hunit, h⟩ := Fallible.bind_eq_ok.1 h
  obtain ⟨rfl, rfl⟩ := Prod.mk.inj (Except.ok.inj h)
  exact ⟨(StateRepository.getFreeAggUnit_ok hunit).1, StateRepository.getFreeCollQpCommon_ne_zero hqp⟩

theorem ensureChannel_inRange {msg : GetChannel} (h : ensureChannel notify msg a = .ok a')
    (ha : InRange a.stRepo.1) : InRange a'.stRepo.1 := by
  rw [ensureChannel] at h
  split at h
  · obtain rfl := Except.ok.inj h
    exact ha
  · obtain ⟨⟨r, c⟩, hallocate, h⟩ := Fallible.bind_eq_ok.1 h
    obtain ⟨stRepo, hcall, h⟩ := Fallible.bind_eq_ok.1 h
    obtain rfl := Except.ok.inj h
    cases StateRepository.call_ok hcall with
    | added hnew _ =>
        intro e he
        rcases (OrderedMap.mem_insert hnew).1 he with rfl | hold
        · exact allocateChannel_inRange hallocate
        · exact ha e ((allocateChannel_ok hallocate).1 ▸ hold)

theorem handle_inRange {e : Event} {sent : List Reply} (h : handle notify a e = .ok (a', sent))
    (ha : InRange a.stRepo.1) : InRange a'.stRepo.1 := by
  have herase : ∀ (r : StateRepository) tag, InRange r →
      InRange { r with channels := r.channels.erase tag } := fun r tag hr e he =>
    hr e (OrderedMap.mem_erase.1 he).1
  cases e with
  | newClient =>
      obtain ⟨rfl, -⟩ := Prod.mk.inj (Except.ok.inj h)
      exact ha
  | getChannel c msg =>
      obtain ⟨a₁, ch, stRepo, hensure, -, hcalled, heq⟩ := onClientGetChannel_ok h
      have ha' : a'.stRepo = stRepo := by
        have hfst := congrArg (fun x => x.1.stRepo) heq
        rwa [holdReply_stRepo] at hfst
      obtain ⟨-, -, -, -, hchannels⟩ := hcalled.channels_update
      rintro ⟨tag, ch'⟩ he
      rw [ha', hchannels] at he
      obtain ⟨ch₀, hch₀, rfl⟩ := OrderedMap.mem_modify.1 he
      have hrange := ensureChannel_inRange hensure ha _ hch₀
      -- an update of a participant keeps both
      dsimp only
      split <;> exact hrange
  | unrefChannel c tag =>
      obtain ⟨a₁, hunref, h⟩ := Fallible.bind_eq_ok.1 h
      obtain ⟨rfl, -⟩ := Prod.mk.inj (Except.ok.inj h)
      exact onClientUnrefChannel_keeps herase hunref ha
  | disconnect c =>
      obtain ⟨a₁, hdisconnect, h⟩ := Fallible.bind_eq_ok.1 h
      obtain ⟨rfl, -⟩ := Prod.mk.inj (Except.ok.inj h)
      exact onDisconnect_keeps herase hdisconnect ha

/-- The identifiers of the channels: each in its range, and no two alike. -/
structure Identified (r : StateRepository) : Prop where
  aggUnits : (r.getChannels.map fun c => c.aggUnit).Nodup
  commons : (r.getChannels.map fun c => c.fabricQpCommon).Nodup
  inRange : ∀ c ∈ r.getChannels, c.aggUnit.toNat < 256 ∧ 1 ≤ c.fabricQpCommon.toNat

theorem identified_of_wellFormed {r : StateRepository} (hr : WellFormed r) (hrange : InRange r) :
    Identified r := by
  have hentries : r.channels.entries.Nodup := List.Nodup.of_map _ r.channels.nodup_keys
  refine ⟨?_, ?_, fun c hc => ?_⟩
  · rw [StateRepository.getChannels, OrderedMap.values, List.map_map]
    exact hentries.map_on fun e he e' he' heq => hr.aggUnits e he e' he' heq
  · rw [StateRepository.getChannels, OrderedMap.values, List.map_map]
    exact hentries.map_on fun e he e' he' heq => hr.commons e he e' he' heq
  · obtain ⟨tag, hmem⟩ := OrderedMap.mem_values.1 hc
    obtain ⟨hunit, hcommon⟩ := hrange _ hmem
    exact ⟨hunit, by bv_omega⟩

/-- What the allocator of the common QP parts answers: one that is not in use, if there is one. -/
structure AllocatesQpCommon (r : StateRepository) : Prop where
  unused : ∀ r' v, r.getFreeCollQpCommon = .ok (r', v) →
    v ≠ 0 ∧ (∀ c ∈ r.getChannels, c.fabricQpCommon ≠ v) ∧ r'.channels = r.channels
  complete : ∀ message, r.getFreeCollQpCommon = .error message →
    ∀ v ≠ 0, ∃ c ∈ r.getChannels, c.fabricQpCommon = v

theorem allocatesQpCommon (r : StateRepository) : AllocatesQpCommon r where
  unused r' v h := by
    obtain ⟨hsame, hunused⟩ := StateRepository.getFreeCollQpCommon_ok h
    exact ⟨StateRepository.getFreeCollQpCommon_ne_zero h, hunused, hsame⟩
  complete _ h := StateRepository.getFreeCollQpCommon_error h

/-- **Identifiers.** In every state of a run of the agent the channels have identifiers of their own,
and the allocator of the common QP parts is complete whatever the channels and its cursor are. -/
theorem run_identified (notify : List CollectiveChannel → σ → Except String σ) (baseMac : MacAddr)
    (ip : IPv4Addr) (s : σ) (run : List (Event × Agent σ))
    (hrun : Along (Handles notify) (initial (StateRepository.initial baseMac ip, s)) run) :
    (∀ x ∈ run, Identified x.2.stRepo.1) ∧ ∀ r, AllocatesQpCommon r := by
  refine ⟨fun x hx => ?_, allocatesQpCommon⟩
  have hx := hrun.invariant (I := fun a => WellFormed a.stRepo.1 ∧ InRange a.stRepo.1)
    (fun a e a' ha h => by
      obtain ⟨-, sent, hhandle⟩ := h
      exact ⟨handle_wellFormed hhandle ha.1, handle_inRange hhandle ha.2⟩)
    ⟨StateRepository.wellFormed_initial baseMac ip, fun _ he => by contradiction⟩ x hx
  exact identified_of_wellFormed hx.1 hx.2

def soloRequest (tag : Nat) : Event := .getChannel 0 ⟨[1], 1, tag, 3, 10, 6, 0⟩

/-- Three channels, of which the second one is given back, and a fourth one. -/
def replacing : List Event :=
  [.newClient, soloRequest 5, soloRequest 6, soloRequest 7, .unrefChannel 0 6, soloRequest 8]

/-- The fourth channel gets the unit of the second one, and a common part of its own. -/
theorem replacing_identified :
    (runOf SameNode.after SameNode.start replacing).map (fun x =>
        x.2.stRepo.1.getChannels.map fun c => (c.tag, c.aggUnit, c.fabricQpCommon)) =
      [[], [(5, 0, 1)], [(5, 0, 1), (6, 1, 2)], [(5, 0, 1), (6, 1, 2), (7, 2, 3)],
        [(5, 0, 1), (7, 2, 3)], [(5, 0, 1), (7, 2, 3), (8, 1, 4)]] ∧
    (∀ x ∈ runOf SameNode.after SameNode.start replacing, Identified x.2.stRepo.1) ∧
      ∀ r, AllocatesQpCommon r := by
  have hrun : Along (Handles AsicDriver.onStRepoChannels) SameNode.start
      (runOf SameNode.after SameNode.start replacing) := SameNode.along_handles (by decide +kernel)
  exact ⟨by decide +kernel,
    run_identified AsicDriver.onStRepoChannels 0 1 (AsicDriver.initialSetup 1024) _ hrun⟩

end Agent

end Mpitofino
