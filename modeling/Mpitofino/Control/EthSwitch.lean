import Mpitofino.Control.AsicDriver
import Mpitofino.Library.Run

/-!
# The Ethernet switch

The callbacks of the ASIC driver that keep the MAC table: a digest about an unknown pair of source
address and port adds the pair to `switching_table_src` and sends packets to the address there from
then on. The table forgets a learned pair that was not seen for a while, and a callback then deletes
it, together with the entry of `switching_table` for the address.

A station that moves is learned at its new port while its old pair is still there.
-/

namespace Mpitofino

structure SwitchingSrcKey where
  srcAddr : Ternary 48
  ingressPort : Ternary 9
  deriving DecidableEq

def SwitchingSrcKey.Hits (k : SwitchingSrcKey) (srcAddr : MacAddr) (ingressPort : PortId) : Prop :=
  k.srcAddr.Matches srcAddr ∧ k.ingressPort.Matches ingressPort

instance (k : SwitchingSrcKey) (srcAddr : MacAddr) (ingressPort : PortId) :
    Decidable (k.Hits srcAddr ingressPort) := inferInstanceAs (Decidable (_ ∧ _))

/-- `$ENTRY_TTL` of an entry that is aged. -/
abbrev EntryTtl := Option Nat

structure EthSwitchDigest where
  srcMac : MacAddr
  ingressPort : PortId
  deriving DecidableEq

structure EthSwitch where
  switchingTable : FinTable MacAddr SwitchingAction
  switchingTableSrc : FinTable SwitchingSrcKey EntryTtl

namespace EthSwitch

/-- The pairs that are never learned: all of the CPU and recirculation ports and of the inner pipes, and
those of the collectives module. -/
def ignored (collectivesMac : MacAddr) : List (SwitchingSrcKey × EntryTtl) :=
  ([64, 68, 448, 452].map fun p => (⟨.any, .exact p⟩, none)) ++
    [(⟨.any, ⟨128, 0x180⟩⟩, none), (⟨.any, ⟨256, 0x180⟩⟩, none), (⟨.exact collectivesMac, .any⟩, none)]

def initialSetup (collectivesMac : MacAddr) : EthSwitch where
  switchingTable := (AsicDriver.initialSetup collectivesMac).switchingTable
  switchingTableSrc := FinTable.empty.putAll (ignored collectivesMac)

def updateSwitchingTable (addr : MacAddr) (action : SwitchingAction) (s : EthSwitch) : EthSwitch :=
  { s with switchingTable := s.switchingTable.put addr action }

def learnedKey (srcMac : MacAddr) (ingressPort : PortId) : SwitchingSrcKey :=
  ⟨.exact srcMac, .exact ingressPort⟩

def learn (s : EthSwitch) (d : EthSwitchDigest) : EthSwitch :=
  updateSwitchingTable d.srcMac (.send d.ingressPort)
    { s with switchingTableSrc :=
        s.switchingTableSrc.put (learnedKey d.srcMac d.ingressPort) (some 5000) }

def ethSwitchLearnCb (learnData : List EthSwitchDigest) (s : EthSwitch) : EthSwitch :=
  learnData.foldl learn s

def ethSwitchIdleCb (key : SwitchingSrcKey) (s : EthSwitch) : Except String EthSwitch :=
  match s.switchingTableSrc.erase? key with
  | none => .error "Failed to delete table entry"
  | some switchingTableSrc =>
      match s.switchingTable.erase? key.srcAddr.value with
      | none => .error "Failed to delete table entry"
      | some switchingTable => .ok ⟨switchingTable, switchingTableSrc⟩

/-! ### Runs -/

/-- The switch with the digests that its driver has not learned yet. -/
structure Learning where
  switch : EthSwitch
  digests : List EthSwitchDigest

inductive Event where
  | packet (srcMac : MacAddr) (ingressPort : PortId)
  | learn (learnData : List EthSwitchDigest)
  | idle (key : SwitchingSrcKey)

/-- A packet causes a digest unless an entry matches. -/
def Known (s : EthSwitch) (srcMac : MacAddr) (ingressPort : PortId) : Prop :=
  ∃ e ∈ s.switchingTableSrc.entries, e.1.Hits srcMac ingressPort

instance (s : EthSwitch) (srcMac : MacAddr) (ingressPort : PortId) :
    Decidable (s.Known srcMac ingressPort) := inferInstanceAs (Decidable (∃ e ∈ _, _))

def handle (t : Learning) : Event → Except String Learning
  | .packet srcMac ingressPort =>
      .ok (if t.switch.Known srcMac ingressPort then t
        else { t with digests := t.digests ++ [⟨srcMac, ingressPort⟩] })
  | .learn learnData => .ok ⟨ethSwitchLearnCb learnData t.switch, t.digests.diff learnData⟩
  | .idle key => do
      let switch ← ethSwitchIdleCb key t.switch
      return { t with switch := switch }

/-- Digests are learned once, and notifications are about learned pairs. -/
def Possible (t : Learning) : Event → Prop
  | .packet _ _ => True
  | .learn learnData => learnData.Subperm t.digests
  | .idle key => ∃ ttl, t.switch.switchingTableSrc.lookup key = some (some ttl)

def Steps (t : Learning) (e : Event) (t' : Learning) : Prop := Possible t e ∧ handle t e = .ok t'

def Learned (s : EthSwitch) (srcMac : MacAddr) (ingressPort : PortId) : Prop :=
  ∃ ttl, s.switchingTableSrc.lookup (learnedKey srcMac ingressPort) = some (some ttl)

/-- Neither a group address nor that of the collectives module. -/
def Station (collectivesMac addr : MacAddr) : Prop :=
  addr.getLsbD 40 = false ∧ addr ≠ collectivesMac

instance (collectivesMac addr : MacAddr) : Decidable (Station collectivesMac addr) :=
  inferInstanceAs (Decidable (_ ∧ _))

/-- Packets to a station are sent exactly when a pair of it is learned, to the port of such a pair; and
the callback for a learned pair of it finds its entries. -/
structure Coherent (collectivesMac : MacAddr) (s : EthSwitch) : Prop where
  sends_iff : ∀ addr, Station collectivesMac addr →
    ((∃ port, s.switchingTable.lookup addr = some (.send port)) ↔ ∃ port, s.Learned addr port)
  sends_learned : ∀ addr, Station collectivesMac addr → ∀ action,
    s.switchingTable.lookup addr = some action → ∃ port, action = .send port ∧ s.Learned addr port
  idle : ∀ addr, Station collectivesMac addr → ∀ port, s.Learned addr port →
    ∃ s', ethSwitchIdleCb (learnedKey addr port) s = .ok s'

def OnlyPair (collectivesMac : MacAddr) (t : Learning) : Event → Prop
  | .idle key => Station collectivesMac key.srcAddr.value →
      ∀ port, t.switch.Learned key.srcAddr.value port → learnedKey key.srcAddr.value port = key
  | _ => True

/-! ### What is learned -/

/-- Only pairs are aged. -/
def Paired (s : EthSwitch) : Prop := ∀ key ttl, s.switchingTableSrc.lookup key = some (some ttl) →
  ∃ srcMac ingressPort, key = learnedKey srcMac ingressPort

section Callbacks

variable {collectivesMac : MacAddr} {s s' : EthSwitch} {d : EthSwitchDigest} {addr : MacAddr}
  {port : PortId}

theorem learnedKey_inj {addr' : MacAddr} {port' : PortId} :
    learnedKey addr port = learnedKey addr' port' ↔ addr = addr' ∧ port = port' := by
  simp [learnedKey, Ternary.exact]

theorem learned_learn :
    (s.learn d).Learned addr port ↔ addr = d.srcMac ∧ port = d.ingressPort ∨ s.Learned addr port := by
  change (∃ ttl, FinTable.lookup (FinTable.put _ _ _) _ = _) ↔ _
  rw [FinTable.lookup_put]
  by_cases hkey : addr = d.srcMac ∧ port = d.ingressPort
  · rw [if_pos (learnedKey_inj.2 hkey)]
    exact iff_of_true ⟨5000, rfl⟩ (Or.inl hkey)
  · rw [if_neg (mt learnedKey_inj.1 hkey), or_iff_right hkey, Learned]

theorem lookup_learn : (s.learn d).switchingTable.lookup addr =
    if addr = d.srcMac then some (.send d.ingressPort) else s.switchingTable.lookup addr :=
  FinTable.lookup_put ..

theorem Paired.learn (h : s.Paired) (d : EthSwitchDigest) : (s.learn d).Paired := by
  intro key ttl hlookup
  have hput := s.switchingTableSrc.lookup_put (learnedKey d.srcMac d.ingressPort) (some 5000) key
  rw [EthSwitch.learn, updateSwitchingTable, hput] at hlookup
  split at hlookup
  · rename_i hkey
    exact ⟨_, _, hkey⟩
  · exact h key ttl hlookup

theorem ethSwitchIdleCb_ok {key : SwitchingSrcKey} (h : ethSwitchIdleCb key s = .ok s') :
    (∀ key', s'.switchingTableSrc.lookup key' =
      if key' = key then none else s.switchingTableSrc.lookup key') ∧
    ∀ addr, s'.switchingTable.lookup addr =
      if addr = key.srcAddr.value then none else s.switchingTable.lookup addr := by
  rw [ethSwitchIdleCb] at h
  split at h
  · contradiction
  · rename_i switchingTableSrc hsrc
    split at h
    · contradiction
    · rename_i switchingTable hdst
      obtain rfl := Except.ok.inj h
      exact ⟨FinTable.lookup_erase? hsrc, FinTable.lookup_erase? hdst⟩

theorem exists_ethSwitchIdleCb {action : SwitchingAction} (hlearned : s.Learned addr port)
    (hsends : s.switchingTable.lookup addr = some action) :
    ∃ s', ethSwitchIdleCb (learnedKey addr port) s = .ok s' := by
  obtain ⟨ttl, hlearned⟩ := hlearned
  obtain ⟨switchingTableSrc, hsrc⟩ := FinTable.exists_erase? hlearned
  obtain ⟨switchingTable, hdst⟩ := FinTable.exists_erase? hsends
  have hdst' : s.switchingTable.erase? (learnedKey addr port).srcAddr.value = some switchingTable := hdst
  rw [ethSwitchIdleCb, hsrc, hdst']
  exact ⟨_, rfl⟩

theorem coherent_of_sends (hiff : ∀ addr, Station collectivesMac addr →
      ((∃ port, s.switchingTable.lookup addr = some (.send port)) ↔ ∃ port, s.Learned addr port))
    (hlearned : ∀ addr, Station collectivesMac addr → ∀ action,
      s.switchingTable.lookup addr = some action → ∃ port, action = .send port ∧ s.Learned addr port) :
    Coherent collectivesMac s := by
  refine ⟨hiff, hlearned, fun addr hstation port hpair => ?_⟩
  obtain ⟨port', hsends⟩ := (hiff addr hstation).2 ⟨port, hpair⟩
  exact exists_ethSwitchIdleCb hpair hsends

theorem Coherent.learn (h : Coherent collectivesMac s) (d : EthSwitchDigest) :
    Coherent collectivesMac (s.learn d) := by
  refine coherent_of_sends (fun addr hstation => ?_) fun addr hstation action hsends => ?_
  · simp only [lookup_learn, learned_learn]
    by_cases heq : addr = d.srcMac
    · simp only [if_pos heq]
      exact iff_of_true ⟨_, rfl⟩ ⟨_, Or.inl ⟨heq, rfl⟩⟩
    · simp only [if_neg heq, h.sends_iff addr hstation]
      exact exists_congr fun port => (or_iff_right fun hd => heq hd.1).symm
  · rw [lookup_learn] at hsends
    split at hsends
    · rename_i heq
      exact ⟨_, (Option.some.inj hsends).symm, learned_learn.2 (Or.inl ⟨heq, rfl⟩)⟩
    · obtain ⟨port, haction, hpair⟩ := h.sends_learned addr hstation action hsends
      exact ⟨port, haction, learned_learn.2 (Or.inr hpair)⟩

theorem coherent_learnCb (h : Coherent collectivesMac s) (hpaired : s.Paired)
    (learnData : List EthSwitchDigest) : Coherent collectivesMac (ethSwitchLearnCb learnData s) ∧
      (ethSwitchLearnCb learnData s).Paired := by
  rw [ethSwitchLearnCb]
  induction learnData generalizing s with
  | nil => exact ⟨h, hpaired⟩
  | cons d learnData ih => exact ih (h.learn d) (hpaired.learn d)

/-- Forgetting a pair keeps the tables coherent exactly when it is the only one of its address. -/
theorem coherent_idleCb_iff (h : Coherent collectivesMac s)
    (hok : ethSwitchIdleCb (learnedKey addr port) s = .ok s') : Coherent collectivesMac s' ↔
      (Station collectivesMac addr → ∀ port', s.Learned addr port' → port' = port) := by
  obtain ⟨hsrc, hdst⟩ := ethSwitchIdleCb_ok hok
  have hlookup : ∀ addr', s'.switchingTable.lookup addr' =
      if addr' = addr then none else s.switchingTable.lookup addr' := hdst
  have hpair : ∀ addr' port', s'.Learned addr' port' ↔
      ¬ (addr' = addr ∧ port' = port) ∧ s.Learned addr' port' := by
    intro addr' port'
    rw [Learned, hsrc]
    by_cases hkey : addr' = addr ∧ port' = port
    · rw [if_pos (learnedKey_inj.2 hkey)]
      exact iff_of_false (fun ⟨_, hnone⟩ => by contradiction) fun hnot => hnot.1 hkey
    · rw [if_neg (mt learnedKey_inj.1 hkey), and_iff_right hkey, Learned]
  constructor
  · intro h' hstation port' hlearned
    by_contra hne
    obtain ⟨port'', hsends⟩ := (h'.sends_iff addr hstation).2
      ⟨port', (hpair addr port').2 ⟨fun heq => hne heq.2, hlearned⟩⟩
    rw [hlookup, if_pos rfl] at hsends
    contradiction
  · intro honly
    refine coherent_of_sends (fun addr' hstation => ?_) fun addr' hstation action hsends => ?_
    · by_cases heq : addr' = addr
      · subst heq
        refine iff_of_false (fun ⟨_, hsends⟩ => ?_) fun ⟨port', hlearned⟩ => ?_
        · rw [hlookup, if_pos rfl] at hsends
          contradiction
        · obtain ⟨hne, hlearned⟩ := (hpair addr' port').1 hlearned
          exact hne ⟨rfl, honly hstation port' hlearned⟩
      · simp only [hlookup, if_neg heq, h.sends_iff addr' hstation]
        exact exists_congr fun port' => ((hpair addr' port').trans
          (and_iff_right fun hkey => heq hkey.1)).symm
    · rw [hlookup] at hsends
      split at hsends
      · contradiction
      · rename_i heq
        obtain ⟨port', haction, hlearned⟩ := h.sends_learned addr' hstation action hsends
        exact ⟨port', haction, (hpair addr' port').2 ⟨fun hkey => heq hkey.1, hlearned⟩⟩

theorem Paired.idleCb {key : SwitchingSrcKey} (h : s.Paired) (hok : ethSwitchIdleCb key s = .ok s') :
    s'.Paired := by
  intro key' ttl hlookup
  rw [(ethSwitchIdleCb_ok hok).1] at hlookup
  split at hlookup
  · contradiction
  · exact h key' ttl hlookup

end Callbacks

/-! ### Every run -/

section Runs

variable {collectivesMac : MacAddr} {t t' : Learning} {e : Event}

theorem initialSetup_static {key : SwitchingSrcKey} {ttl : EntryTtl}
    (h : (initialSetup collectivesMac).switchingTableSrc.lookup key = some ttl) : ttl = none := by
  rw [initialSetup, FinTable.lookup_putAll, FinTable.lookup_empty, Option.or_none] at h
  have hmem := FinTable.mem_of_lastWrite h
  rw [ignored, List.mem_append] at hmem
  rcases hmem with hmem | hmem
  · obtain ⟨p, -, heq⟩ := List.mem_map.1 hmem
    exact (Prod.mk.inj heq).2.symm
  · simp only [List.mem_cons, List.not_mem_nil, or_false, Prod.mk.injEq] at hmem
    rcases hmem with hmem | hmem | hmem <;> exact hmem.2

theorem coherent_initialSetup : Coherent collectivesMac (initialSetup collectivesMac) ∧
    (initialSetup collectivesMac).Paired := by
  have hnone : ∀ addr, Station collectivesMac addr →
      (initialSetup collectivesMac).switchingTable.lookup addr = none := by
    rintro addr ⟨hgroup, hcoll⟩
    rw [initialSetup, AsicDriver.initialSetup, FinTable.lookup_putAll, FinTable.lookup_empty,
      Option.or_none, FinTable.lastWrite_eq_none_iff]
    simp only [List.map_cons, List.map_nil, List.mem_cons, List.not_mem_nil, or_false, not_or]
    refine ⟨?_, hcoll⟩
    rintro rfl
    exact absurd hgroup (by decide)
  refine ⟨coherent_of_sends (fun addr hstation => ?_) fun addr hstation action hsends => ?_,
    fun key ttl hlookup => ?_⟩
  · refine iff_of_false (fun ⟨port, hsends⟩ => ?_) fun ⟨port, ttl, hlearned⟩ => ?_
    · rw [hnone addr hstation] at hsends
      contradiction
    · exact absurd (initialSetup_static hlearned) (Option.some_ne_none _)
  · rw [hnone addr hstation] at hsends
    contradiction
  · exact absurd (initialSetup_static hlookup) (Option.some_ne_none _)

/-- An event keeps the tables coherent exactly when it is no notification about one of several pairs. -/
theorem steps_coherent_iff (h : Steps t e t') (ht : Coherent collectivesMac t.switch)
    (hpaired : t.switch.Paired) : (Coherent collectivesMac t'.switch ↔ OnlyPair collectivesMac t e) ∧
      t'.switch.Paired := by
  obtain ⟨hpossible, h⟩ := h
  cases e with
  | packet srcMac ingressPort =>
      obtain rfl := Except.ok.inj h
      split
      · exact ⟨iff_of_true ht trivial, hpaired⟩
      · exact ⟨iff_of_true ht trivial, hpaired⟩
  | learn learnData =>
      obtain rfl := Except.ok.inj h
      obtain ⟨hcoherent, hpaired⟩ := coherent_learnCb ht hpaired learnData
      exact ⟨iff_of_true hcoherent trivial, hpaired⟩
  | idle key =>
      obtain ⟨switch, hidle, h⟩ := Fallible.bind_eq_ok.1 h
      obtain rfl := Except.ok.inj h
      obtain ⟨ttl, hlookup⟩ := hpossible
      obtain ⟨addr, port, rfl⟩ := hpaired key ttl hlookup
      refine ⟨(coherent_idleCb_iff ht hidle).trans ?_, hpaired.idleCb hidle⟩
      refine forall_congr' fun _ => forall₂_congr fun port' _ => ?_
      exact (learnedKey_inj.trans (and_iff_right rfl)).symm

theorem along_onlyPair_iff {run : List (Event × Learning)} (ht : Coherent collectivesMac t.switch)
    (hpaired : t.switch.Paired) (hrun : Along Steps t run) :
    (∀ x ∈ run, Coherent collectivesMac x.2.switch) ↔
      Along (fun t e _ => OnlyPair collectivesMac t e) t run := by
  induction run generalizing t with
  | nil => simp
  | cons x run ih =>
      obtain ⟨hsteps, hrun⟩ := hrun
      obtain ⟨hiff, hpaired'⟩ := steps_coherent_iff hsteps ht hpaired
      rw [List.forall_mem_cons, Along.cons, hiff]
      exact and_congr_right fun honly => ih (hiff.2 honly) hpaired' hrun

/-- **Coherence.** The MAC tables are coherent in every state of a run if and only if each pair of a
station that is forgotten is the only one of its address at that time. -/
theorem run_coherent_iff (collectivesMac : MacAddr) (run : List (Event × Learning))
    (hrun : Along Steps ⟨initialSetup collectivesMac, []⟩ run) :
    (∀ x ∈ run, Coherent collectivesMac x.2.switch) ↔
      Along (fun t e _ => OnlyPair collectivesMac t e) ⟨initialSetup collectivesMac, []⟩ run :=
  along_onlyPair_iff coherent_initialSetup.1 coherent_initialSetup.2 hrun

end Runs

/-! ### A station that moves -/

namespace Moved

instance (s : EthSwitch) (srcMac : MacAddr) (ingressPort : PortId) :
    Decidable (s.Learned srcMac ingressPort) :=
  decidable_of_iff ((s.switchingTableSrc.lookup (learnedKey srcMac ingressPort)).join.isSome = true) (by
    rw [Option.isSome_iff_exists]
    exact exists_congr fun ttl => Option.join_eq_some_iff)

instance (t : Learning) : ∀ e, Decidable (Possible t e)
  | .packet _ _ => isTrue trivial
  | .learn learnData => inferInstanceAs (Decidable (learnData.Subperm _))
  | .idle key => decidable_of_iff ((t.switch.switchingTableSrc.lookup key).join.isSome = true) (by
      rw [Option.isSome_iff_exists]
      exact exists_congr fun ttl => Option.join_eq_some_iff)

instance (collectivesMac : MacAddr) (t : Learning) : ∀ e, Decidable (OnlyPair collectivesMac t e)
  | .packet _ _ => isTrue trivial
  | .learn _ => isTrue trivial
  | .idle _ => inferInstanceAs (Decidable (_ → ∀ _, _ → _))

def start : Learning := ⟨initialSetup 0x400, []⟩

def after (t : Learning) (e : Event) : Learning := ((handle t e).toOption).getD t

theorem steps_after {t : Learning} {e : Event} (h : Possible t e ∧ (handle t e).isOk = true) :
    Steps t e (after t e) := by
  obtain ⟨hpossible, hok⟩ := h
  refine ⟨hpossible, ?_⟩
  cases hhandle : handle t e with
  | error message =>
      rw [hhandle] at hok
      contradiction
  | ok t' => rw [after, hhandle, Except.toOption, Option.getD_some]

def station : MacAddr := 0x020000000001

/-- The station comes back after it was forgotten. -/
def returns : List Event :=
  [.packet station 4, .learn [⟨station, 4⟩], .idle (learnedKey station 4), .packet station 8,
    .learn [⟨station, 8⟩]]

theorem returns_coherent : Along Steps start (runOf after start returns) ∧
    ∀ x ∈ runOf after start returns, Coherent 0x400 x.2.switch := by
  have hpossible : Along (fun t e _ => Possible t e ∧ (handle t e).isOk = true) start
      (runOf after start returns) := by
    decide +kernel
  have hrun : Along Steps start (runOf after start returns) :=
    hpossible.of_runOf fun _ _ => steps_after
  exact ⟨hrun, (run_coherent_iff 0x400 _ hrun).2 (by decide +kernel)⟩

/-- The station is learned at its new port before its old pair is forgotten. -/
def moves : List Event :=
  [.packet station 4, .learn [⟨station, 4⟩], .packet station 8, .learn [⟨station, 8⟩],
    .idle (learnedKey station 4)]

/-- Packets to the station are flooded though it is learned at its new port, and the callback for that
pair fails. -/
theorem moves_not_coherent : Along Steps start (runOf after start moves) ∧
    (runOf after start moves).getLast?.map (fun x => x.2.switch.switchingTable.lookup station)
      = some none ∧
    (runOf after start moves).getLast?.map (fun x => decide (x.2.switch.Learned station 8))
      = some true ∧
    (runOf after start moves).getLast?.map (fun x =>
      (ethSwitchIdleCb (learnedKey station 8) x.2.switch).isOk) = some false ∧
    ¬ ∀ x ∈ runOf after start moves, Coherent 0x400 x.2.switch := by
  have hpossible : Along (fun t e _ => Possible t e ∧ (handle t e).isOk = true) start
      (runOf after start moves) := by
    decide +kernel
  have hrun : Along Steps start (runOf after start moves) :=
    hpossible.of_runOf fun _ _ => steps_after
  refine ⟨hrun, by decide +kernel, by decide +kernel, by decide +kernel, fun h => ?_⟩
  rw [along_onlyPair_iff coherent_initialSetup.1 coherent_initialSetup.2 hrun] at h
  exact absurd h (by decide +kernel)

end Moved

end EthSwitch

end Mpitofino
