import Mpitofino.System.Switch

/-!
# The stages of a slot

A slot is used for one sequence number at a time. While it is, pipe 0 collects the packets of its
participants, the packet that was the last of them is recirculated and crosses to pipe 3 with their
sum, pipe 3 collects that sum and the packets of its own participants, and the last packet there is
recirculated and distributed. Where the participants are on one pipe there are only the stages of that
pipe.
-/

namespace Mpitofino

open AsicDriver

variable (rc : CollectiveChannel)

/-- What the participants of a pipe contributed, and behind them the other pipe. -/
def contributed (pipe : PipeId) (given : Participant → Option Frame) (crossed : Option AggregateH) :
    Fin (rc.contributions pipe) → Option AggregateH := fun k =>
  match (rc.onPipe pipe)[k.val]? with
  | some p => (given p).map Frame.aggregate
  | none => crossed

def sum0 (given : Participant → Option Frame) : AggregateH := total (contributed rc 0 given none)

def Complete {n : Nat} (input : Fin n → Option AggregateH) : Prop := ∀ k, (input k).isSome

inductive Stage where
  | collecting0
  | clearing0
  | crossing
  | collecting3
  | clearing3

/-- What the cell of pipe 0 holds. -/
def Stage.held0 (given : Participant → Option Frame) :
    Stage → Fin (rc.contributions 0) → Option AggregateH
  | .collecting0 | .clearing0 => contributed rc 0 given none
  | _ => fun _ => none

def Stage.crossed (given : Participant → Option Frame) : Stage → Option AggregateH
  | .collecting3 | .clearing3 => some (sum0 rc given)
  | _ => none

def Stage.held3 (given : Participant → Option Frame) (stage : Stage) :
    Fin (rc.contributions 3) → Option AggregateH :=
  contributed rc 3 given (stage.crossed rc given)

/-- The cells of a slot on the pipes, the packets given for its sequence number, and its packets inside
the switch. -/
structure SlotView where
  cell : PipeId → Cell
  given : Participant → Option Frame
  packets : List Packet

/-- The one packet of a slot inside the switch: it was a participant's, and carries other words. -/
def Carries (v : SlotView) (seq : Nat) (port : PortId) (from' : Participant → Prop)
    (words : AggregateH → Prop) : Prop :=
  ∃ p f agg, from' p ∧ v.given p = some f ∧
    v.packets = [⟨port, { f with aggregate := agg }, seq⟩] ∧ words agg

/-- The first word of each unit is that of a sum. -/
def HalfOf (sum agg : AggregateH) : Prop := ∀ w : Fin 64, w.val % 2 = 0 → agg w = sum w

/-- The packet of a slot. -/
def Token (v : SlotView) (seq : Nat) : Stage → Prop
  | .collecting0 | .collecting3 => v.packets = []
  | .clearing0 => Carries v seq 68 (· ∈ rc.onPipe 0) (HalfOf (sum0 rc v.given))
  | .crossing => rc.connected = true ∧ Carries v seq 448 (· ∈ rc.onPipe 0) (· = sum0 rc v.given)
  | .clearing3 => 0 < rc.count 3 ∧
      Carries v seq 452 (fun p => p ∈ rc.onPipe 3 ∨ rc.connected = true ∧ p ∈ rc.members)
        (HalfOf (total (Stage.held3 rc v.given .clearing3)))

/-- The slot is at a stage of its work on a sequence number. -/
structure AtStage (v : SlotView) (seq : Nat) (stage : Stage) : Prop where
  cell0 : (v.cell 0).Holds (stage.held0 rc v.given)
  cell3 : (v.cell 3).Holds (stage.held3 rc v.given)
  progress0 : stage = .collecting0 ↔ ¬ Complete (contributed rc 0 v.given none)
  waiting3 : stage = .collecting3 → ¬ Complete (stage.held3 rc v.given)
  complete3 : stage = .clearing3 → Complete (stage.held3 rc v.given)
  token : Token rc v seq stage

variable {rc}

/-! ### Contributions -/

section Contributed

variable {pipe : PipeId} {given : Participant → Option Frame} {crossed : Option AggregateH}

theorem contributed_of_participant {k : Fin (rc.contributions pipe)} {p : Participant}
    (hp : (rc.onPipe pipe)[k.val]? = some p) :
    contributed rc pipe given crossed k = (given p).map Frame.aggregate := by
  rw [contributed, hp]

theorem count_le_contributions (pipe : PipeId) : rc.count pipe ≤ rc.contributions pipe := by
  rw [CollectiveChannel.contributions]
  split
  · rename_i h
    rw [h.1]
    omega
  · exact le_refl _

theorem lt_contributions {i : Nat} {p : Participant} (hp : (rc.onPipe pipe)[i]? = some p) :
    i < rc.contributions pipe :=
  (List.getElem?_eq_some_iff.1 hp).1.trans_le (count_le_contributions pipe)

theorem contributed_update (hnodup : rc.members.Nodup) {i : Nat} {p : Participant}
    (hp : (rc.onPipe pipe)[i]? = some p) (f : Frame) :
    contributed rc pipe (Function.update given p (some f)) crossed =
      Function.update (contributed rc pipe given crossed) ⟨i, lt_contributions hp⟩
        (some f.aggregate) := by
  have hpipe : (rc.onPipe pipe).Nodup := hnodup.filter _
  funext k
  by_cases hk : k = ⟨i, lt_contributions hp⟩
  · subst hk
    rw [Function.update_self, contributed_of_participant hp, Function.update_self]
    rfl
  · rw [Function.update_of_ne hk]
    unfold contributed
    split
    · rename_i p' hp'
      have hne : p' ≠ p := by
        rintro rfl
        refine hk (Fin.ext ?_)
        exact (List.getElem?_inj (List.getElem?_eq_some_iff.1 hp').1 hpipe).1 (hp'.trans hp.symm)
      rw [Function.update_of_ne hne]
    · rfl

theorem contributed_update_of_not_mem {p : Participant} (hp : p ∉ rc.onPipe pipe) (f : Frame) :
    contributed rc pipe (Function.update given p (some f)) crossed =
      contributed rc pipe given crossed := by
  funext k
  unfold contributed
  split
  · rename_i p' hp'
    have hne : p' ≠ p := by
      rintro rfl
      exact hp (List.mem_of_getElem? hp')
    rw [Function.update_of_ne hne]
  · rfl

theorem contributions_of_connected (hconnected : rc.connected = true) :
    rc.contributions 3 = rc.count 3 + 1 := by
  rw [CollectiveChannel.contributions, if_pos ⟨rfl, hconnected⟩]

theorem contributions_zero (rc : CollectiveChannel) : rc.contributions 0 = rc.count 0 :=
  if_neg fun h => absurd h.1 (by decide)

theorem contributed_behind {k : Fin (rc.contributions pipe)} (hk : k.val = rc.count pipe) :
    contributed rc pipe given crossed k = crossed := by
  have hnone : (rc.onPipe pipe)[k.val]? = none := List.getElem?_eq_none hk.ge
  rw [contributed, hnone]

theorem contributed_congr {k : Fin (rc.contributions pipe)} (hk : k.val < rc.count pipe)
    (crossed' : Option AggregateH) :
    contributed rc pipe given crossed k = contributed rc pipe given crossed' k := by
  have hget : (rc.onPipe pipe)[k.val]? = some (rc.onPipe pipe)[k.val] := List.getElem?_eq_getElem hk
  rw [contributed_of_participant hget, contributed_of_participant hget]

/-- The place of the sum of the other pipe. -/
def crossIndex (hconnected : rc.connected = true) : Fin (rc.contributions 3) :=
  ⟨rc.count 3, (Nat.lt_succ_self _).trans_eq (contributions_of_connected hconnected).symm⟩

/-- The sum of the other pipe is the last contribution. -/
theorem contributed_crossed (hconnected : rc.connected = true) (sum : AggregateH) :
    contributed rc 3 given (some sum) =
      Function.update (contributed rc 3 given none) (crossIndex hconnected) (some sum) := by
  funext k
  by_cases hk : k = crossIndex hconnected
  · rw [hk, Function.update_self]
    exact contributed_behind rfl
  · rw [Function.update_of_ne hk]
    have hne : k.val ≠ rc.count 3 := fun heq => hk (Fin.ext heq)
    have hlt := k.isLt.trans_eq (contributions_of_connected hconnected)
    exact contributed_congr (by omega) none

theorem contributed_of_not_connected (hconnected : ¬ rc.connected = true) :
    contributed rc 3 given crossed = contributed rc 3 given none := by
  have hcontributions : rc.contributions 3 = rc.count 3 := if_neg fun h => hconnected h.2
  funext k
  exact contributed_congr (k.isLt.trans_eq hcontributions) none

end Contributed

/-! ### Sums -/

def wordsOf (given : Participant → Option Frame) (p : Participant) : AggregateH :=
  ((given p).map Frame.aggregate).getD 0

private theorem sum_range_getElem? {A M : Type} [AddCommMonoid M] (l : List A) (w : A → M) (y : M) :
    ∑ k ∈ Finset.range l.length, (l[k]?.map w).getD y = (l.map w).sum := by
  induction l with
  | nil => rfl
  | cons a l ih =>
      rw [List.length_cons, Finset.sum_range_succ', List.map_cons, List.sum_cons, add_comm]
      exact congrArg (w a + ·) ih

theorem total_contributed (pipe : PipeId) (given : Participant → Option Frame)
    (crossed : Option AggregateH) :
    total (contributed rc pipe given crossed) = ((rc.onPipe pipe).map (wordsOf given)).sum +
      if pipe = 3 ∧ rc.connected then crossed.getD 0 else 0 := by
  let words (n : Nat) : AggregateH :=
    ((rc.onPipe pipe)[n]?.map (wordsOf given)).getD (crossed.getD 0)
  have hval : ∀ k : Fin (rc.contributions pipe),
      (contributed rc pipe given crossed k).getD 0 = words k.val := by
    intro k
    dsimp only [contributed, words]
    cases (rc.onPipe pipe)[k.val]? <;> rfl
  rw [total, Finset.sum_congr rfl fun k _ => hval k, Fin.sum_univ_eq_sum_range words]
  by_cases h : pipe = 3 ∧ rc.connected
  · have hn : rc.contributions pipe = (rc.onPipe pipe).length + 1 := by
      rw [CollectiveChannel.contributions, if_pos h, h.1]
      rfl
    have hlast : words (rc.onPipe pipe).length = crossed.getD 0 := by
      dsimp only [words]
      rw [List.getElem?_eq_none (le_refl (rc.onPipe pipe).length), Option.map_none,
        Option.getD_none]
    rw [if_pos h, hn, Finset.sum_range_succ, hlast]
    exact congrArg (· + _) (sum_range_getElem? ..)
  · have hn : rc.contributions pipe = (rc.onPipe pipe).length := if_neg h
    rw [if_neg h, hn, add_zero]
    exact sum_range_getElem? ..

theorem sum_members (hports : ∀ p ∈ rc.members, pipeOf p.switchPort = 0 ∨ pipeOf p.switchPort = 3)
    (w : Participant → AggregateH) :
    ((rc.onPipe 0).map w).sum + ((rc.onPipe 3).map w).sum = (rc.members.map w).sum := by
  have h3 : rc.onPipe 3 = rc.members.filter fun p => !decide (pipeOf p.switchPort = 0) := by
    refine List.filter_congr fun p hp => ?_
    rcases hports p hp with h | h <;> rw [h] <;> decide
  rw [h3, CollectiveChannel.onPipe, ← List.sum_append, ← List.map_append]
  exact ((List.filter_append_perm _ _).map w).sum_eq

/-! ### A contribution is added -/

/-- The slot after a packet was added on a pipe. -/
def SlotView.add (v : SlotView) (rc : CollectiveChannel) (pipe : PipeId) (i seq : Nat) (f : Frame) :
    SlotView :=
  let c := (v.cell pipe).add (NodeBitmap.nodeAt i) f.aggregate
  { v with
    cell := Function.update v.cell pipe c
    packets := v.packets ++ if c.bitmap = NodeBitmap.fullAt (rc.contributions pipe) then
      [⟨recircPort pipe, { f with aggregate := c.sumsA f.aggregate }, seq⟩] else [] }

def SlotView.arrive (v : SlotView) (rc : CollectiveChannel) (p : Participant) (i seq : Nat)
    (f : Frame) : SlotView :=
  { v.add rc (pipeOf p.switchPort) i seq f with given := Function.update v.given p (some f) }

theorem mem_onPipe {pipe : PipeId} {p : Participant} :
    p ∈ rc.onPipe pipe ↔ p ∈ rc.members ∧ pipeOf p.switchPort = pipe := by
  simp [CollectiveChannel.onPipe]

theorem not_mem_onPipe {pipe pipe' : PipeId} {p : Participant} (hp : p ∈ rc.onPipe pipe)
    (hne : pipe' ≠ pipe) : p ∉ rc.onPipe pipe' := fun hp' =>
  hne ((mem_onPipe.1 hp').2.symm.trans (mem_onPipe.1 hp).2)

theorem connected_of_count (h0 : 0 < rc.count 0) (h3 : 0 < rc.count 3) : rc.connected = true := by
  simp [CollectiveChannel.connected, h0, h3]

theorem count_of_connected (h : rc.connected = true) : 0 < rc.count 0 ∧ 0 < rc.count 3 := by
  simpa [CollectiveChannel.connected] using h

section Views

variable {v : SlotView} {pipe : PipeId} {i seq : Nat} {f : Frame} {p : Participant}

@[simp] theorem SlotView.cell_add : (v.add rc pipe i seq f).cell pipe =
    (v.cell pipe).add (NodeBitmap.nodeAt i) f.aggregate :=
  Function.update_self ..

theorem SlotView.cell_add_of_ne {pipe' : PipeId} (hne : pipe' ≠ pipe) :
    (v.add rc pipe i seq f).cell pipe' = v.cell pipe' :=
  Function.update_of_ne hne ..

theorem SlotView.packets_add (hempty : v.packets = []) : (v.add rc pipe i seq f).packets =
    if ((v.add rc pipe i seq f).cell pipe).bitmap = NodeBitmap.fullAt (rc.contributions pipe) then
      [⟨recircPort pipe,
        { f with aggregate := ((v.add rc pipe i seq f).cell pipe).sumsA f.aggregate }, seq⟩]
    else [] := by
  rw [cell_add]
  exact (congrArg (· ++ _) hempty).trans (List.nil_append _)

end Views

section Steps

variable (hnodup : rc.members.Nodup) (hle : ∀ pipe, rc.contributions pipe ≤ 64) {v : SlotView}
  {seq : Nat} {stage : Stage}

theorem AtStage.count_pos (h : AtStage rc v seq .collecting0 ∨ AtStage rc v seq .clearing0) :
    0 < rc.count 0 := by
  rcases h with h | h
  · by_contra hzero
    exact h.progress0.1 rfl fun k =>
      absurd (k.isLt.trans_eq (contributions_zero rc)) (by omega)
  · obtain ⟨p, f, agg, hp, -⟩ := h.token
    exact List.length_pos_of_mem hp

/-- A packet that adds the last contribution carries the first half of the sum. -/
theorem packets_add_cases {pipe : PipeId} {i : Nat} {f : Frame} (hempty : v.packets = [])
    (hle : rc.contributions pipe ≤ 64) {input : Fin (rc.contributions pipe) → Option AggregateH}
    (hcell : ((v.add rc pipe i seq f).cell pipe).Holds input) :
    (Complete input ∧ ∃ agg, HalfOf (total input) agg ∧
        (v.add rc pipe i seq f).packets = [⟨recircPort pipe, { f with aggregate := agg }, seq⟩]) ∨
      (¬ Complete input ∧ (v.add rc pipe i seq f).packets = []) := by
  rw [SlotView.packets_add hempty]
  by_cases hfull : ((v.add rc pipe i seq f).cell pipe).bitmap =
      NodeBitmap.fullAt (rc.contributions pipe)
  · rw [if_pos hfull]
    exact Or.inl ⟨(hcell.bitmap_eq_fullAt_iff hle).1 hfull, _, fun w hw => hcell.sumsA _ hw, rfl⟩
  · rw [if_neg hfull]
    exact Or.inr ⟨fun hcomplete => hfull ((hcell.bitmap_eq_fullAt_iff hle).2 hcomplete), rfl⟩

include hnodup hle

/-- A packet arrives on pipe 0. -/
theorem AtStage.arrive0 (h : AtStage rc v seq stage) {i : Nat} {p : Participant} {f : Frame}
    (hp : (rc.onPipe 0)[i]? = some p) (hnone : v.given p = none) :
    stage = .collecting0 ∧
      (((v.arrive rc p i seq f).packets ≠ [] ∧ AtStage rc (v.arrive rc p i seq f) seq .clearing0) ∨
        ((v.arrive rc p i seq f).packets = [] ∧
          AtStage rc (v.arrive rc p i seq f) seq .collecting0)) := by
  have hmem := List.mem_of_getElem? hp
  have hpipe := (mem_onPipe.1 hmem).2
  have hinput : contributed rc 0 v.given none ⟨i, lt_contributions hp⟩ = none := by
    rw [contributed_of_participant (k := ⟨i, lt_contributions hp⟩) hp, hnone]
    rfl
  have hstage : stage = .collecting0 := h.progress0.2 fun hcomplete => by
    have hsome := hcomplete ⟨i, lt_contributions hp⟩
    rw [hinput] at hsome
    contradiction
  subst hstage
  refine ⟨rfl, ?_⟩
  rw [SlotView.arrive, hpipe]
  have hcell0 : ((v.add rc 0 i seq f).cell 0).Holds
      (contributed rc 0 (Function.update v.given p (some f)) none) := by
    rw [contributed_update hnodup hp f, SlotView.cell_add]
    exact h.cell0.add (hle 0) hinput f.aggregate
  have hcell3 : ((v.add rc 0 i seq f).cell 3).Holds
      (contributed rc 3 (Function.update v.given p (some f)) none) := by
    rw [SlotView.cell_add_of_ne (by decide),
      contributed_update_of_not_mem (not_mem_onPipe hmem (by decide))]
    exact h.cell3
  rcases packets_add_cases h.token (hle 0) hcell0 with ⟨hcomplete, agg, hagg, hpackets⟩ |
    ⟨hincomplete, hpackets⟩
  · refine Or.inl ⟨hpackets ▸ List.cons_ne_nil _ _, hcell0, hcell3, ?_, nofun, nofun, ?_⟩
    · exact iff_of_false nofun (not_not_intro hcomplete)
    · exact ⟨p, f, agg, hmem, Function.update_self .., hpackets, hagg⟩
  · exact Or.inr ⟨hpackets, hcell0, hcell3, iff_of_true rfl hincomplete, nofun, nofun, hpackets⟩

section Arrive3

variable {i : Nat} {p : Participant} {f : Frame} (hp : (rc.onPipe 3)[i]? = some p)

omit hnodup hle

include hp

theorem sum0_update (given : Participant → Option Frame) :
    sum0 rc (Function.update given p (some f)) = sum0 rc given := by
  have h0 := not_mem_onPipe (List.mem_of_getElem? hp) (show (0 : PipeId) ≠ 3 by decide)
  rw [sum0, contributed_update_of_not_mem h0, sum0]

theorem Stage.crossed_update (given : Participant → Option Frame) :
    stage.crossed rc (Function.update given p (some f)) = stage.crossed rc given := by
  cases stage <;> simp only [Stage.crossed, sum0_update hp]

theorem Stage.held0_update (given : Participant → Option Frame) :
    stage.held0 rc (Function.update given p (some f)) = stage.held0 rc given := by
  have h0 := not_mem_onPipe (List.mem_of_getElem? hp) (show (0 : PipeId) ≠ 3 by decide)
  cases stage <;> simp only [Stage.held0, contributed_update_of_not_mem h0]

include hnodup

theorem Stage.held3_update (given : Participant → Option Frame) :
    stage.held3 rc (Function.update given p (some f)) =
      Function.update (stage.held3 rc given) ⟨i, lt_contributions hp⟩ (some f.aggregate) := by
  rw [Stage.held3, Stage.crossed_update hp, contributed_update hnodup hp f, Stage.held3]

include hle

theorem AtStage.cells_arrive3 (h : AtStage rc v seq stage) (hnone : v.given p = none) :
    stage.held3 rc v.given ⟨i, lt_contributions hp⟩ = none ∧
      ((v.add rc 3 i seq f).cell 0).Holds (stage.held0 rc (Function.update v.given p (some f))) ∧
      ((v.add rc 3 i seq f).cell 3).Holds (stage.held3 rc (Function.update v.given p (some f))) ∧
      (stage = .collecting0 ↔
        ¬ Complete (contributed rc 0 (Function.update v.given p (some f)) none)) := by
  have hinput : stage.held3 rc v.given ⟨i, lt_contributions hp⟩ = none := by
    rw [Stage.held3, contributed_of_participant (k := ⟨i, lt_contributions hp⟩) hp, hnone]
    rfl
  refine ⟨hinput, ?_, ?_, ?_⟩
  · rw [SlotView.cell_add_of_ne (by decide), Stage.held0_update hp]
    exact h.cell0
  · rw [Stage.held3_update hnodup hp, SlotView.cell_add]
    exact h.cell3.add (hle 3) hinput f.aggregate
  · rw [contributed_update_of_not_mem
      (not_mem_onPipe (List.mem_of_getElem? hp) (show (0 : PipeId) ≠ 3 by decide))]
    exact h.progress0

omit hnodup hle

theorem Token.add (h : Token rc v seq stage) (h3 : stage ≠ .collecting3) (h3' : stage ≠ .clearing3)
    (hpackets : (v.add rc 3 i seq f).packets = v.packets) :
    Token rc { v.add rc 3 i seq f with given := Function.update v.given p (some f) } seq stage := by
  have hsum := sum0_update (f := f) hp v.given
  have hcarries : ∀ {port words words'}, (∀ agg, words agg → words' agg) →
      Carries v seq port (· ∈ rc.onPipe 0) words →
        Carries { v.add rc 3 i seq f with given := Function.update v.given p (some f) } seq port
          (· ∈ rc.onPipe 0) words' := by
    rintro port words words' hwords ⟨p', f', agg, hp', hf', hpackets', hagg⟩
    have hne : p' ≠ p := by
      rintro rfl
      exact not_mem_onPipe (List.mem_of_getElem? hp) (show (0 : PipeId) ≠ 3 by decide) hp'
    exact ⟨p', f', agg, hp', (Function.update_of_ne hne ..).trans hf', hpackets.trans hpackets',
      hwords agg hagg⟩
  cases stage with
  | collecting0 => exact hpackets.trans h
  | clearing0 => exact hcarries (fun agg hagg => by rwa [hsum]) h
  | crossing => exact ⟨h.1, hcarries (fun agg hagg => by rwa [hsum]) h.2⟩
  | collecting3 => exact absurd rfl h3
  | clearing3 => exact absurd rfl h3'

theorem AtStage.connected (h : AtStage rc v seq stage) (h3 : stage ≠ .collecting3)
    (h3' : stage ≠ .clearing3) : rc.connected = true := by
  have hcount : 0 < rc.count 3 := List.length_pos_of_mem (List.mem_of_getElem? hp)
  cases stage with
  | collecting0 => exact connected_of_count (AtStage.count_pos (Or.inl h)) hcount
  | clearing0 => exact connected_of_count (AtStage.count_pos (Or.inr h)) hcount
  | crossing => exact h.token.1
  | collecting3 => exact absurd rfl h3
  | clearing3 => exact absurd rfl h3'

end Arrive3

/-- A packet arrives on pipe 3. -/
theorem AtStage.arrive3 (h : AtStage rc v seq stage) {i : Nat} {p : Participant} {f : Frame}
    (hp : (rc.onPipe 3)[i]? = some p) (hnone : v.given p = none) :
    (stage ≠ .collecting3 ∧ (v.arrive rc p i seq f).packets = v.packets ∧
        AtStage rc (v.arrive rc p i seq f) seq stage) ∨
      (stage = .collecting3 ∧
        (((v.arrive rc p i seq f).packets ≠ [] ∧ AtStage rc (v.arrive rc p i seq f) seq .clearing3) ∨
          ((v.arrive rc p i seq f).packets = [] ∧
            AtStage rc (v.arrive rc p i seq f) seq .collecting3))) := by
  have hmem := List.mem_of_getElem? hp
  obtain ⟨hinput, hcell0, hcell3, hprogress0⟩ := h.cells_arrive3 hnodup hle (f := f) hp hnone
  rw [SlotView.arrive, (mem_onPipe.1 hmem).2]
  by_cases hstage : stage = .collecting3
  · subst hstage
    refine Or.inr ⟨rfl, ?_⟩
    rcases packets_add_cases h.token (hle 3) hcell3 with ⟨hcomplete, agg, hagg, hpackets⟩ |
      ⟨hincomplete, hpackets⟩
    · refine Or.inl ⟨hpackets ▸ List.cons_ne_nil _ _, hcell0, hcell3, ?_, nofun,
        fun _ => hcomplete, List.length_pos_of_mem hmem, ?_⟩
      · exact iff_of_false nofun (hprogress0.not.1 nofun)
      · exact ⟨p, f, agg, Or.inl hmem, Function.update_self .., hpackets, hagg⟩
    · exact Or.inr ⟨hpackets, hcell0, hcell3, hprogress0, fun _ => hincomplete, nofun, hpackets⟩
  · have hclearing : stage ≠ .clearing3 := fun heq => by
      have hsome := h.complete3 heq ⟨i, lt_contributions hp⟩
      rw [hinput] at hsome
      contradiction
    have hnocross : stage.crossed rc (Function.update v.given p (some f)) = none := by
      cases stage with
      | collecting0 | clearing0 | crossing => rfl
      | collecting3 => exact absurd rfl hstage
      | clearing3 => exact absurd rfl hclearing
    -- the sum of pipe 0 is still missing, so the bitmap is not full
    have hfull : ((v.add rc 3 i seq f).cell 3).bitmap ≠ NodeBitmap.fullAt (rc.contributions 3) := by
      intro heq
      have hsome := (hcell3.bitmap_eq_fullAt_iff (hle 3)).1 heq
        (crossIndex (h.connected hp hstage hclearing))
      rw [Stage.held3, contributed_behind rfl, hnocross] at hsome
      contradiction
    have hpackets : (v.add rc 3 i seq f).packets = v.packets := by
      rw [SlotView.cell_add] at hfull
      refine (congrArg (v.packets ++ ·) (if_neg hfull)).trans (List.append_nil _)
    exact Or.inl ⟨hstage, hpackets, hcell0, hcell3, hprogress0,
      fun heq => absurd heq hstage, fun heq => absurd heq hclearing,
      h.token.add hp hstage hclearing hpackets⟩

omit hnodup in
/-- The sum of pipe 0 is added on pipe 3. -/
theorem AtStage.cross (h : AtStage rc v seq .crossing) : ∃ p f, p ∈ rc.onPipe 0 ∧
    v.given p = some f ∧ v.packets = [⟨448, { f with aggregate := sum0 rc v.given }, seq⟩] ∧
      let v' := { v with packets := [] }.add rc 3 (rc.count 3) seq
        { f with aggregate := sum0 rc v.given }
      (v'.packets ≠ [] ∧ AtStage rc v' seq .clearing3) ∨
        (v'.packets = [] ∧ AtStage rc v' seq .collecting3) := by
  obtain ⟨hconnected, p, f, agg, hp, hf, hpackets, rfl⟩ := h.token
  refine ⟨p, f, hp, hf, hpackets, ?_⟩
  intro v'
  have hheld : Stage.held3 rc v.given .collecting3 = Function.update
      (Stage.held3 rc v.given .crossing) (crossIndex hconnected) (some (sum0 rc v.given)) :=
    contributed_crossed hconnected _
  have hcell3 : (v'.cell 3).Holds (Stage.held3 rc v.given .collecting3) := by
    rw [hheld, SlotView.cell_add]
    exact h.cell3.add (hle 3) (contributed_behind (k := crossIndex hconnected) rfl) _
  have hcell0 : (v'.cell 0).Holds fun _ : Fin (rc.contributions 0) => none := by
    rw [SlotView.cell_add_of_ne (by decide)]
    exact h.cell0
  have hprogress0 := h.progress0.not.1 nofun
  rcases packets_add_cases (v := { v with packets := [] }) rfl (hle 3) hcell3 with
    ⟨hcomplete, agg, hagg, hpackets'⟩ | ⟨hincomplete, hpackets'⟩
  · refine Or.inl ⟨hpackets' ▸ List.cons_ne_nil _ _, hcell0, hcell3,
      iff_of_false nofun hprogress0, nofun, fun _ => hcomplete,
      (count_of_connected hconnected).2, ?_⟩
    exact ⟨p, f, agg, Or.inr ⟨hconnected, (mem_onPipe.1 hp).1⟩, hf, hpackets', hagg⟩
  · exact Or.inr ⟨hpackets', hcell0, hcell3, iff_of_false nofun hprogress0, fun _ => hincomplete,
      nofun, hpackets'⟩

end Steps

/-! ### A cell is emptied -/

def SlotView.clear (v : SlotView) (pipe : PipeId) (packets : List Packet) : SlotView :=
  { v with cell := Function.update v.cell pipe Cell.zero, packets := packets }

section Clear

variable {v : SlotView} {seq : Nat}

@[simp] theorem SlotView.cell_clear {pipe : PipeId} {packets : List Packet} :
    (v.clear pipe packets).cell pipe = Cell.zero :=
  Function.update_self ..

theorem SlotView.cell_clear_of_ne {pipe pipe' : PipeId} {packets : List Packet}
    (hne : pipe' ≠ pipe) : (v.clear pipe packets).cell pipe' = v.cell pipe' :=
  Function.update_of_ne hne ..

/-- The recirculated packet of pipe 0 crosses with the sum of pipe 0. -/
theorem AtStage.clear0 (h : AtStage rc v seq .clearing0) : ∃ p f agg, p ∈ rc.onPipe 0 ∧
    v.given p = some f ∧ v.packets = [⟨recircPort 0, { f with aggregate := agg }, seq⟩] ∧
      (v.cell 0).sumsB agg = sum0 rc v.given ∧
      (rc.connected = true → AtStage rc
        (v.clear 0 [⟨448, { f with aggregate := sum0 rc v.given }, seq⟩]) seq .crossing) := by
  obtain ⟨p, f, agg, hp, hf, hpackets, hagg⟩ := h.token
  refine ⟨p, f, agg, hp, hf, hpackets, h.cell0.sumsB hagg, fun hconnected =>
    ⟨?_, ?_, iff_of_false nofun (h.progress0.not.1 nofun), nofun, nofun, hconnected, p, f, _, hp, hf,
      rfl, rfl⟩⟩
  · rw [SlotView.cell_clear]
    exact Cell.holds_zero
  · rw [SlotView.cell_clear_of_ne (by decide)]
    exact h.cell3

/-- The recirculated packet of pipe 3 carries the sum. -/
theorem AtStage.clear3 (h : AtStage rc v seq .clearing3) : 0 < rc.count 3 ∧ ∃ p f agg,
    (p ∈ rc.onPipe 3 ∨ rc.connected = true ∧ p ∈ rc.members) ∧ v.given p = some f ∧
      v.packets = [⟨recircPort 3, { f with aggregate := agg }, seq⟩] ∧
      (v.cell 3).sumsB agg = total (Stage.held3 rc v.given .clearing3) := by
  obtain ⟨hcount, p, f, agg, hp, hf, hpackets, hagg⟩ := h.token
  exact ⟨hcount, p, f, agg, hp, hf, hpackets, h.cell3.sumsB hagg⟩

end Clear

/-! ### The end and the beginning -/

theorem given_of_complete {pipe : PipeId} {given : Participant → Option Frame}
    {crossed : Option AggregateH} (h : Complete (contributed rc pipe given crossed))
    {p : Participant} (hp : p ∈ rc.onPipe pipe) : (given p).isSome := by
  obtain ⟨i, hi⟩ := List.mem_iff_getElem?.1 hp
  have hsome := h ⟨i, lt_contributions hi⟩
  rw [contributed_of_participant (k := ⟨i, lt_contributions hi⟩) hi, Option.isSome_map] at hsome
  exact hsome

/-- The packet that is distributed carries the sum, and leaves empty cells behind. -/
structure Finishes (rc : CollectiveChannel) (v : SlotView) (pipe : PipeId) (sum : AggregateH) :
    Prop where
  given : ∀ p ∈ rc.members, (v.given p).isSome
  sum : sum = (rc.members.map (wordsOf v.given)).sum
  cell0 : (v.clear pipe []).cell 0 = Cell.zero
  cell3 : (v.clear pipe []).cell 3 = Cell.zero

section Finish

variable (hports : ∀ p ∈ rc.members, pipeOf p.switchPort = 0 ∨ pipeOf p.switchPort = 3)
  {v : SlotView} {seq : Nat}

include hports

theorem AtStage.finishes0 (h : AtStage rc v seq .clearing0) (hconnected : ¬ rc.connected = true) :
    Finishes rc v 0 (sum0 rc v.given) := by
  have hcount : rc.count 3 = 0 := by
    by_contra hpos
    exact hconnected (connected_of_count (AtStage.count_pos (Or.inr h)) (Nat.pos_of_ne_zero hpos))
  have hempty : rc.onPipe 3 = [] := List.length_eq_zero_iff.1 hcount
  have hcomplete : Complete (contributed rc 0 v.given none) :=
    not_not.1 (h.progress0.not.1 nofun)
  refine ⟨fun p hp => ?_, ?_, SlotView.cell_clear, ?_⟩
  · rcases hports p hp with hpipe | hpipe
    · exact given_of_complete hcomplete (mem_onPipe.2 ⟨hp, hpipe⟩)
    · have hmem := mem_onPipe.2 ⟨hp, hpipe⟩
      rw [hempty] at hmem
      contradiction
  · rw [← sum_members hports, sum0, total_contributed, hempty, if_neg fun h => hconnected h.2]
    rfl
  · rw [SlotView.cell_clear_of_ne (by decide)]
    refine h.cell3.eq_zero fun k => absurd k.isLt ?_
    have hcontributions : rc.contributions 3 = rc.count 3 := if_neg fun h => hconnected h.2
    omega

theorem AtStage.finishes3 (h : AtStage rc v seq .clearing3) :
    Finishes rc v 3 (total (Stage.held3 rc v.given .clearing3)) := by
  have hcomplete3 := h.complete3 rfl
  have hcomplete0 : Complete (contributed rc 0 v.given none) :=
    not_not.1 (h.progress0.not.1 nofun)
  refine ⟨fun p hp => ?_, ?_, ?_, SlotView.cell_clear⟩
  · rcases hports p hp with hpipe | hpipe
    · exact given_of_complete hcomplete0 (mem_onPipe.2 ⟨hp, hpipe⟩)
    · exact given_of_complete hcomplete3 (mem_onPipe.2 ⟨hp, hpipe⟩)
  · rw [Stage.held3, total_contributed, ← sum_members hports, add_comm]
    congr 1
    by_cases hconnected : rc.connected = true
    · rw [if_pos ⟨rfl, hconnected⟩, Stage.crossed, Option.getD_some, sum0, total_contributed,
        if_neg fun h => absurd h.1 (by decide), add_zero]
    · have hcount : rc.count 0 = 0 := by
        by_contra hpos
        exact hconnected (connected_of_count (Nat.pos_of_ne_zero hpos) h.token.1)
      rw [if_neg fun h => hconnected h.2, List.length_eq_zero_iff.1 hcount]
      rfl
  · rw [SlotView.cell_clear_of_ne (by decide)]
    exact h.cell0.eq_zero fun k => rfl

end Finish

theorem complete_contributed {pipe : PipeId} {given : Participant → Option Frame}
    {crossed : Option AggregateH} (hgiven : ∀ p ∈ rc.onPipe pipe, (given p).isSome)
    (hcrossed : pipe = 3 → rc.connected = true → crossed.isSome) :
    Complete (contributed rc pipe given crossed) := by
  intro k
  by_cases hk : k.val < rc.count pipe
  · have hget : (rc.onPipe pipe)[k.val]? = some (rc.onPipe pipe)[k.val] :=
      List.getElem?_eq_getElem hk
    rw [contributed_of_participant hget, Option.isSome_map]
    exact hgiven _ (List.mem_of_getElem? hget)
  · by_cases hchained : pipe = 3 ∧ rc.connected = true
    · obtain ⟨rfl, hconnected⟩ := hchained
      have hlt := k.isLt.trans_eq (contributions_of_connected hconnected)
      rw [contributed_behind (by omega)]
      exact hcrossed rfl hconnected
    · exact absurd (k.isLt.trans_eq (if_neg hchained)) hk

/-- The stage of a slot without contributions. -/
def firstStage (rc : CollectiveChannel) : Stage :=
  if 0 < rc.count 0 then .collecting0 else .collecting3

theorem contributed_none {pipe : PipeId} {given : Participant → Option Frame}
    (hgiven : ∀ p ∈ rc.members, given p = none) :
    contributed rc pipe given none = fun _ => none := by
  funext k
  unfold contributed
  split
  · rename_i p hp
    rw [hgiven p (mem_onPipe.1 (List.mem_of_getElem? hp)).1]
    rfl
  · rfl

theorem not_complete_none {pipe : PipeId} (hcount : 0 < rc.count pipe) :
    ¬ Complete fun _ : Fin (rc.contributions pipe) => (none : Option AggregateH) := fun h =>
  Bool.false_ne_true (h ⟨0, hcount.trans_le (count_le_contributions pipe)⟩)

theorem atStage_first (hports : ∀ p ∈ rc.members, pipeOf p.switchPort = 0 ∨ pipeOf p.switchPort = 3)
    (hnonempty : rc.members ≠ []) {v : SlotView} (hcell0 : v.cell 0 = Cell.zero)
    (hcell3 : v.cell 3 = Cell.zero) (hgiven : ∀ p ∈ rc.members, v.given p = none)
    (hpackets : v.packets = []) (seq : Nat) : AtStage rc v seq (firstStage rc) := by
  have h0 : contributed rc 0 v.given none = fun _ => none := contributed_none hgiven
  have h3 : contributed rc 3 v.given none = fun _ => none := contributed_none hgiven
  by_cases hcount : 0 < rc.count 0
  · rw [firstStage, if_pos hcount]
    have hincomplete : ¬ Complete (contributed rc 0 v.given none) := by
      rw [h0]
      exact not_complete_none hcount
    refine ⟨?_, ?_, iff_of_true rfl hincomplete, nofun, nofun, hpackets⟩
    · rw [hcell0, Stage.held0, h0]
      exact Cell.holds_zero
    · change (v.cell 3).Holds (contributed rc 3 v.given none)
      rw [hcell3, h3]
      exact Cell.holds_zero
  · have hconnected : ¬ rc.connected = true := fun h => hcount (count_of_connected h).1
    have hheld : Stage.held3 rc v.given .collecting3 = fun _ => none := by
      rw [Stage.held3, contributed_of_not_connected hconnected, h3]
    have hcount3 : 0 < rc.count 3 := by
      obtain ⟨p, hp⟩ := List.exists_mem_of_ne_nil _ hnonempty
      rcases hports p hp with hpipe | hpipe
      · exact absurd (List.length_pos_of_mem (mem_onPipe.2 ⟨hp, hpipe⟩)) hcount
      · exact List.length_pos_of_mem (mem_onPipe.2 ⟨hp, hpipe⟩)
    rw [firstStage, if_neg hcount]
    have hcomplete : Complete (contributed rc 0 v.given none) := fun k =>
      absurd (k.isLt.trans_eq (contributions_zero rc)) (by omega)
    have hincomplete : ¬ Complete (Stage.held3 rc v.given .collecting3) := by
      rw [hheld]
      exact not_complete_none hcount3
    refine ⟨?_, ?_, iff_of_false nofun (not_not_intro hcomplete), fun _ => hincomplete, nofun,
      hpackets⟩
    · rw [hcell0]
      exact Cell.holds_zero
    · rw [hcell3, hheld]
      exact Cell.holds_zero

end Mpitofino
