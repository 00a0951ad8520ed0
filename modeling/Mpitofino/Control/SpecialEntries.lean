import Mpitofino.Control.EthSwitch

/-!
# The special entries of the MAC table

`switching_table` has entries for the broadcast address and for the address of the collectives module
that nothing but `initial_setup` is meant to write. An entry of `switching_table_src` keeps packets with
the second one as their source from being learned. There is none for the first one.
-/

namespace Mpitofino

namespace EthSwitch

def broadcastMac : MacAddr := 0xffffffffffff

structure Special (collectivesMac : MacAddr) (s : EthSwitch) : Prop where
  broadcast : s.switchingTable.lookup broadcastMac = some .bcast
  collective : s.switchingTable.lookup collectivesMac = some .collective

/-- The event is no lesson about the broadcast address. -/
def Ordinary : Event → Prop
  | .learn learnData => ∀ d ∈ learnData, d.srcMac ≠ broadcastMac
  | _ => True

instance : ∀ e, Decidable (Ordinary e)
  | .packet _ _ => isTrue trivial
  | .learn _ => inferInstanceAs (Decidable (∀ _ ∈ _, _))
  | .idle _ => isTrue trivial

/-- The event is a packet from the broadcast address that is not known by one of the entries of
`initial_setup`. -/
def Strange (collectivesMac : MacAddr) : Event → Prop
  | .packet srcMac ingressPort =>
      srcMac = broadcastMac ∧ ¬ (initialSetup collectivesMac).Known srcMac ingressPort
  | _ => False

/-- The entries of `initial_setup` are there, and nothing is learned about the special addresses. -/
structure Guarded (collectivesMac : MacAddr) (t : Learning) : Prop where
  special : Special collectivesMac t.switch
  static : ∀ key, (initialSetup collectivesMac).switchingTableSrc.lookup key = some none →
    t.switch.switchingTableSrc.lookup key = some none
  paired : t.switch.Paired
  broadcast : ∀ port, ¬ t.switch.Learned broadcastMac port
  collective : ∀ port, ¬ t.switch.Learned collectivesMac port
  digests : ∀ d ∈ t.digests, d.srcMac ≠ collectivesMac

section Entries

variable {collectivesMac : MacAddr} {s s' : EthSwitch} {addr : MacAddr} {port : PortId}

theorem learnedKey_not_static :
    (initialSetup collectivesMac).switchingTableSrc.lookup (learnedKey addr port) = none := by
  rw [initialSetup, FinTable.lookup_putAll, FinTable.lookup_empty, Option.or_none,
    FinTable.lastWrite_eq_none_iff]
  have hany : ∀ p, (⟨.any, p⟩ : SwitchingSrcKey) ≠ learnedKey addr port := fun p hkey =>
    absurd (congrArg (fun k => k.srcAddr.mask) hkey) (by decide : (0 : BitVec 48) ≠ BitVec.allOnes 48)
  intro hmem
  obtain ⟨e, hmem, hkey⟩ := List.mem_map.1 hmem
  rw [ignored, List.mem_append] at hmem
  rcases hmem with hmem | hmem
  · obtain ⟨p, -, rfl⟩ := List.mem_map.1 hmem
    exact hany _ hkey
  · simp only [List.mem_cons, List.not_mem_nil, or_false] at hmem
    rcases hmem with rfl | rfl | rfl
    · exact hany _ hkey
    · exact hany _ hkey
    · have hmask := congrArg (fun k => k.ingressPort.mask) hkey
      exact absurd hmask (by decide : (0 : BitVec 9) ≠ BitVec.allOnes 9)

theorem collectivesMac_static :
    (initialSetup collectivesMac).switchingTableSrc.lookup ⟨.exact collectivesMac, .any⟩
      = some none := by
  rw [initialSetup, FinTable.lookup_putAll, ignored, FinTable.lastWrite_append]
  have hlast : FinTable.lastWrite (⟨.exact collectivesMac, .any⟩ : SwitchingSrcKey)
      [(⟨.any, ⟨128, 0x180⟩⟩, none), (⟨.any, ⟨256, 0x180⟩⟩, none), (⟨.exact collectivesMac, .any⟩, none)]
      = some (none : EntryTtl) := by
    refine FinTable.lastWrite_eq_some (by simp) fun ttl hmem => ?_
    simp only [List.mem_cons, List.not_mem_nil, or_false, Prod.mk.injEq] at hmem
    rcases hmem with hmem | hmem | hmem <;> exact hmem.2
  rw [hlast]
  rfl

theorem known_of_static (hstatic : ∀ key,
      (initialSetup collectivesMac).switchingTableSrc.lookup key = some none →
        s.switchingTableSrc.lookup key = some none)
    (hknown : (initialSetup collectivesMac).Known addr port) : s.Known addr port := by
  obtain ⟨⟨key, ttl⟩, hmem, hhits⟩ := hknown
  have hlookup := (FinTable.mem_entries_iff _).1 hmem
  obtain rfl := initialSetup_static hlookup
  exact ⟨⟨key, none⟩, (FinTable.mem_entries_iff _).2 (hstatic key hlookup), hhits⟩

theorem collectivesMac_known (port : PortId) :
    (initialSetup collectivesMac).Known collectivesMac port :=
  ⟨⟨⟨.exact collectivesMac, .any⟩, none⟩, (FinTable.mem_entries_iff _).2 collectivesMac_static,
    Ternary.matches_exact.2 rfl, Ternary.matches_any port⟩

theorem special_initialSetup_iff :
    Special collectivesMac (initialSetup collectivesMac) ↔ collectivesMac ≠ broadcastMac := by
  constructor
  · rintro ⟨hbroadcast, hcollective⟩ rfl
    rw [hbroadcast] at hcollective
    exact absurd hcollective (by decide)
  · intro hne
    have hlookup : ∀ addr, (initialSetup collectivesMac).switchingTable.lookup addr =
        FinTable.lastWrite addr [(broadcastMac, .bcast), (collectivesMac, .collective)] := by
      intro addr
      rw [initialSetup, AsicDriver.initialSetup, FinTable.lookup_putAll, FinTable.lookup_empty,
        Option.or_none]
      rfl
    constructor
    · rw [hlookup]
      simp [FinTable.lastWrite, hne]
    · rw [hlookup]
      simp [FinTable.lastWrite]

theorem Guarded.initialSetup (hne : collectivesMac ≠ broadcastMac) :
    Guarded collectivesMac ⟨initialSetup collectivesMac, []⟩ where
  special := special_initialSetup_iff.2 hne
  static _ h := h
  paired := coherent_initialSetup.2
  broadcast port := by
    rintro ⟨ttl, hlearned⟩
    exact absurd (initialSetup_static hlearned) (Option.some_ne_none _)
  collective port := by
    rintro ⟨ttl, hlearned⟩
    exact absurd (initialSetup_static hlearned) (Option.some_ne_none _)
  digests _ hd := absurd hd List.not_mem_nil

end Entries

/-! ### Every run -/

section Events

variable {collectivesMac : MacAddr} {t t' : Learning} {e : Event}

theorem not_special_learnCb {learnData : List EthSwitchDigest} {s : EthSwitch}
    (h : ∃ d ∈ learnData, d.srcMac = broadcastMac) :
    ¬ Special collectivesMac (ethSwitchLearnCb learnData s) := by
  have hsends : ∃ port, (ethSwitchLearnCb learnData s).switchingTable.lookup broadcastMac
      = some (.send port) := by
    rw [ethSwitchLearnCb]
    have hkeeps : ∀ (learnData : List EthSwitchDigest) (s : EthSwitch),
        (∃ port, s.switchingTable.lookup broadcastMac = some (.send port)) →
          ∃ port, (learnData.foldl learn s).switchingTable.lookup broadcastMac = some (.send port) := by
      intro learnData
      induction learnData with
      | nil => exact fun _ hs => hs
      | cons d learnData ih =>
          intro s hs
          refine ih _ ?_
          rw [lookup_learn]
          split
          · exact ⟨_, rfl⟩
          · exact hs
    induction learnData generalizing s with
    | nil =>
        obtain ⟨d, hd, -⟩ := h
        exact absurd hd List.not_mem_nil
    | cons d learnData ih =>
        by_cases hd : d.srcMac = broadcastMac
        · refine hkeeps learnData _ ⟨d.ingressPort, ?_⟩
          rw [lookup_learn, if_pos hd.symm]
        · obtain ⟨d', hd', heq⟩ := h
          rcases List.mem_cons.1 hd' with rfl | hd'
          · exact absurd heq hd
          · exact ih ⟨d', hd', heq⟩
  rintro ⟨hbroadcast, -⟩
  obtain ⟨port, hsends⟩ := hsends
  rw [hbroadcast] at hsends
  exact absurd hsends (by simp)

theorem Guarded.learn {d : EthSwitchDigest} (h : Guarded collectivesMac t)
    (hbroadcast : d.srcMac ≠ broadcastMac) (hcollective : d.srcMac ≠ collectivesMac) :
    Guarded collectivesMac ⟨t.switch.learn d, t.digests⟩ where
  special := by
    constructor
    · rw [lookup_learn, if_neg hbroadcast.symm]
      exact h.special.broadcast
    · rw [lookup_learn, if_neg hcollective.symm]
      exact h.special.collective
  static key hkey := by
    have hne : key ≠ learnedKey d.srcMac d.ingressPort := by
      rintro rfl
      rw [learnedKey_not_static] at hkey
      contradiction
    have hput := t.switch.switchingTableSrc.lookup_put (learnedKey d.srcMac d.ingressPort) (some 5000) key
    rw [if_neg hne] at hput
    exact hput.trans (h.static key hkey)
  paired := h.paired.learn d
  broadcast port := by
    rw [learned_learn, not_or]
    exact ⟨fun heq => hbroadcast heq.1.symm, h.broadcast port⟩
  collective port := by
    rw [learned_learn, not_or]
    exact ⟨fun heq => hcollective heq.1.symm, h.collective port⟩
  digests := h.digests

theorem Guarded.learnCb {learnData : List EthSwitchDigest} (h : Guarded collectivesMac t)
    (hbroadcast : ∀ d ∈ learnData, d.srcMac ≠ broadcastMac)
    (hcollective : ∀ d ∈ learnData, d.srcMac ≠ collectivesMac) :
    Guarded collectivesMac ⟨ethSwitchLearnCb learnData t.switch, t.digests⟩ := by
  rw [ethSwitchLearnCb]
  induction learnData generalizing t with
  | nil => exact h
  | cons d learnData ih =>
      rw [List.forall_mem_cons] at hbroadcast hcollective
      exact ih (h.learn hbroadcast.1 hcollective.1) hbroadcast.2 hcollective.2

theorem Guarded.idleCb {key : SwitchingSrcKey} {s' : EthSwitch} (h : Guarded collectivesMac t)
    {ttl : Nat} (hkey : t.switch.switchingTableSrc.lookup key = some (some ttl))
    (hok : ethSwitchIdleCb key t.switch = .ok s') : Guarded collectivesMac ⟨s', t.digests⟩ := by
  obtain ⟨srcMac, port, rfl⟩ := h.paired key ttl hkey
  obtain ⟨hsrc, hdst⟩ := ethSwitchIdleCb_ok hok
  have hlearned : t.switch.Learned srcMac port := ⟨ttl, hkey⟩
  have hstays : ∀ addr, (∀ port, ¬ t.switch.Learned addr port) →
      s'.switchingTable.lookup addr = t.switch.switchingTable.lookup addr ∧
        ∀ port, ¬ s'.Learned addr port := by
    intro addr hnone
    refine ⟨(hdst addr).trans (if_neg ?_), fun port' => ?_⟩
    · rintro rfl
      exact hnone port hlearned
    · rintro ⟨ttl', hlookup⟩
      rw [hsrc] at hlookup
      split at hlookup
      · contradiction
      · exact hnone port' ⟨ttl', hlookup⟩
  obtain ⟨hbroadcast, hbroadcast'⟩ := hstays broadcastMac h.broadcast
  obtain ⟨hcollective, hcollective'⟩ := hstays collectivesMac h.collective
  refine ⟨⟨hbroadcast.trans h.special.broadcast, hcollective.trans h.special.collective⟩,
    fun key' hkey' => ?_, h.paired.idleCb hok, hbroadcast', hcollective', h.digests⟩
  have hstatic := h.static key' hkey'
  rw [hsrc, if_neg]
  · exact hstatic
  · rintro rfl
    rw [hkey] at hstatic
    exact absurd hstatic (by simp)

/-- An event keeps the special entries exactly when it is no lesson about the broadcast address. -/
theorem Guarded.steps_special_iff (h : Guarded collectivesMac t) (hsteps : Steps t e t') :
    (Special collectivesMac t'.switch ↔ Ordinary e) ∧ (Ordinary e → Guarded collectivesMac t') := by
  obtain ⟨hpossible, hok⟩ := hsteps
  have hboth : (Ordinary e → Guarded collectivesMac t') →
      (¬ Ordinary e → ¬ Special collectivesMac t'.switch) →
      (Special collectivesMac t'.switch ↔ Ordinary e) ∧ (Ordinary e → Guarded collectivesMac t') :=
    fun hkeep hlose => ⟨⟨fun hs => by_contra fun he => hlose he hs, fun he => (hkeep he).special⟩, hkeep⟩
  cases e with
  | packet srcMac ingressPort =>
      obtain rfl := Except.ok.inj hok
      refine hboth (fun _ => ?_) fun hnot => absurd trivial hnot
      split
      · exact h
      · rename_i hunknown
        refine { h with digests := fun d hd => ?_ }
        rcases List.mem_append.1 hd with hd | hd
        · exact h.digests d hd
        · obtain rfl := List.mem_singleton.1 hd
          rintro rfl
          exact hunknown (known_of_static h.static (collectivesMac_known ingressPort))
  | learn learnData =>
      obtain rfl := Except.ok.inj hok
      have hsub : ∀ d ∈ learnData, d.srcMac ≠ collectivesMac :=
        fun d hd => h.digests d (hpossible.subset hd)
      refine hboth (fun hordinary => ?_) fun hnot => not_special_learnCb (by
        simpa [Ordinary] using hnot)
      exact { h.learnCb hordinary hsub with
        digests := fun d hd => h.digests d ((List.diff_sublist _ _).subset hd) }
  | idle key =>
      obtain ⟨switch, hidle, hok⟩ := Fallible.bind_eq_ok.1 hok
      obtain rfl := Except.ok.inj hok
      obtain ⟨ttl, hkey⟩ := hpossible
      exact hboth (fun _ => h.idleCb hkey hidle) fun hnot => absurd trivial hnot

theorem Guarded.along_special_iff {run : List (Event × Learning)} (h : Guarded collectivesMac t)
    (hrun : Along Steps t run) :
    (∀ x ∈ run, Special collectivesMac x.2.switch) ↔ ∀ x ∈ run, Ordinary x.1 := by
  induction run generalizing t with
  | nil => simp
  | cons x run ih =>
      obtain ⟨hsteps, hrun⟩ := hrun
      obtain ⟨hiff, hnext⟩ := h.steps_special_iff hsteps
      rw [List.forall_mem_cons, List.forall_mem_cons, hiff]
      exact and_congr_right fun hordinary => ih (hnext hordinary) hrun

/-- Without strange packets there are no lessons about the broadcast address. -/
theorem Guarded.ordinary {run : List (Event × Learning)} (h : Guarded collectivesMac t)
    (hdigests : ∀ d ∈ t.digests, d.srcMac ≠ broadcastMac) (hrun : Along Steps t run)
    (hstrange : ∀ x ∈ run, ¬ Strange collectivesMac x.1) : ∀ x ∈ run, Ordinary x.1 := by
  induction run generalizing t with
  | nil => exact fun x hx => absurd hx List.not_mem_nil
  | cons x run ih =>
      obtain ⟨e, t'⟩ := x
      obtain ⟨hsteps, hrun⟩ := hrun
      rw [List.forall_mem_cons] at hstrange
      have hordinary : Ordinary e ∧ ∀ d ∈ t'.digests, d.srcMac ≠ broadcastMac := by
        obtain ⟨hpossible, hok⟩ := hsteps
        cases e with
        | packet srcMac ingressPort =>
            obtain rfl := Except.ok.inj hok
            refine ⟨trivial, ?_⟩
            split
            · exact hdigests
            · rename_i hunknown
              intro d hd
              rcases List.mem_append.1 hd with hd | hd
              · exact hdigests d hd
              · obtain rfl := List.mem_singleton.1 hd
                exact fun heq => hstrange.1 ⟨heq, fun hknown =>
                  hunknown (known_of_static h.static hknown)⟩
        | learn learnData =>
            obtain rfl := Except.ok.inj hok
            exact ⟨fun d hd => hdigests d (hpossible.subset hd),
              fun d hd => hdigests d ((List.diff_sublist _ _).subset hd)⟩
        | idle key =>
            obtain ⟨switch, hidle, hok⟩ := Fallible.bind_eq_ok.1 hok
            obtain rfl := Except.ok.inj hok
            exact ⟨trivial, hdigests⟩
      rw [List.forall_mem_cons]
      exact ⟨hordinary.1, ih ((h.steps_special_iff hsteps).2 hordinary.1) hordinary.2 hrun hstrange.2⟩

end Events

/-- **Special entries.** The broadcast address and the one of the collectives module keep their entries
in a run if and only if they are different addresses and nothing is learned about the broadcast address,
and nothing is where no packet has it as its source, but on ports that are ignored. -/
theorem run_special_iff (collectivesMac : MacAddr) (run : List (Event × Learning))
    (hrun : Along Steps ⟨initialSetup collectivesMac, []⟩ run) :
    ((Special collectivesMac (initialSetup collectivesMac) ∧
        ∀ x ∈ run, Special collectivesMac x.2.switch) ↔
      collectivesMac ≠ broadcastMac ∧ ∀ x ∈ run, Ordinary x.1) ∧
    (collectivesMac ≠ broadcastMac → (∀ x ∈ run, ¬ Strange collectivesMac x.1) →
      ∀ x ∈ run, Ordinary x.1) := by
  constructor
  · rw [special_initialSetup_iff]
    exact and_congr_right fun hne => (Guarded.initialSetup hne).along_special_iff hrun
  · exact fun hne => (Guarded.initialSetup hne).ordinary (fun d hd => absurd hd List.not_mem_nil) hrun

namespace Moved

theorem run_of_possible {events : List Event}
    (h : Along (fun t e _ => Possible t e ∧ (handle t e).isOk = true) start (runOf after start events)) :
    Along Steps start (runOf after start events) :=
  h.of_runOf fun _ _ => steps_after

theorem returns_special : Special 0x400 (initialSetup 0x400) ∧
    ∀ x ∈ runOf after start returns, Special 0x400 x.2.switch :=
  (run_special_iff 0x400 (runOf after start returns) (run_of_possible (by decide +kernel))).1.2
    ⟨by decide, by decide +kernel⟩

/-- A packet from the broadcast address comes in at a front-panel port. -/
def strange : List Event := [.packet broadcastMac 4, .learn [⟨broadcastMac, 4⟩]]

/-- Broadcast packets are sent to that port alone. -/
theorem strange_not_special : Along Steps start (runOf after start strange) ∧
    (runOf after start strange).getLast?.map (fun x => x.2.switch.switchingTable.lookup broadcastMac)
      = some (some (.send 4)) ∧
    ¬ ∀ x ∈ runOf after start strange, Special 0x400 x.2.switch := by
  have hrun : Along Steps start (runOf after start strange) := run_of_possible (by decide +kernel)
  refine ⟨hrun, by decide +kernel, fun h => ?_⟩
  rw [(Guarded.initialSetup (by decide)).along_special_iff hrun] at h
  exact absurd h (by decide +kernel)

end Moved

end EthSwitch

end Mpitofino
