import Mpitofino.Client.Results

/-!
# Calls that throw

A call of `allreduce` throws when a buffer has no alignment, a request cannot be posted, completions
cannot be polled, or one of them has an error or a wrong length. `get_channel` finds the channel again
for the next call of the group with its tag: the queue pair still has the requests of the call that
threw, and their numbers are those of the next call as well.
-/

namespace Mpitofino

namespace ClientLib

namespace Host

/-- What happens on a channel. A call may throw, and while none is running the outstanding requests may
complete in any order. -/
inductive Move where
  | event (e : Event)
  | fillThrows
  | postThrows (posted : Nat)
  | pollThrows
  | completionThrows (polled : List Posted) (wcs : List Completion)
  | flush

def outstanding (h : Host) : List Posted := h.completions ++ h.recvs ++ h.sends

inductive Moves (h : Host) : Move → Host → Prop where
  | event {e : Event} {h' : Host} (hstep : Step h e h') : Moves h (.event e) h'
  | fillThrows {c : Allreduce} {input : Memory} {t : Loop} {message : String}
      (hrunning : h.running = some ⟨c, input, t, false⟩) (hcontinues : c.Continues t)
      (hfill : c.fill t = .error message) : Moves h .fillThrows { h with running := none }
  | postThrows {c : Allreduce} {input : Memory} {t t' : Loop} {posted : List WorkRequest} {k : Nat}
      (hrunning : h.running = some ⟨c, input, t, false⟩) (hcontinues : c.Continues t)
      (hfill : c.fill t = .ok (t', posted)) (hk : k < posted.length) :
      Moves h (.postThrows k) { h.post (posted.take k) with running := none }
  | pollThrows {c : Allreduce} {input : Memory} {t : Loop}
      (hrunning : h.running = some ⟨c, input, t, true⟩) :
      Moves h .pollThrows { h with running := none }
  | completionThrows {c : Allreduce} {input : Memory} {t : Loop}
      {polled completions recvs sends : List Posted} {wcs : List Completion} {message : String}
      (hrunning : h.running = some ⟨c, input, t, true⟩)
      (hpolled : h.outstanding.Perm (polled ++ (completions ++ recvs ++ sends)))
      (hbatch : wcs.length ≤ 2 * reqInFlight)
      (hwrIds : List.Forall₂ (fun w wc => wc.wrId = w.2.wrId) polled wcs)
      (hloop : wcs.foldlM (c.complete wcs.length) t = .error message) :
      Moves h (.completionThrows polled wcs)
        { h with running := none, completions := completions, recvs := recvs, sends := sends }
  | flush {completions recvs sends : List Posted} (hidle : h.running = none)
      (hflush : h.outstanding.Perm (completions ++ recvs ++ sends)) :
      Moves h .flush { h with completions := completions, recvs := recvs, sends := sends }

section Channel

variable (sentWords others : Nat → AggregateH) (inputs : Nat → Nat → Value)

/-- The network loses nothing, and the buffers of the user are apart. -/
def Surrounded (h : Host) : Move → Prop
  | .event e => Network sentWords others h e ∧ ∀ c mem, e = .call c mem → c.Admissible
  | _ => True

/-- A call finds nothing outstanding, and sends its first message when the others send theirs of the
same call. -/
structure Ready (h : Host) (c : Allreduce) : Prop where
  rests : Rests h
  inStep : ∀ i < c.count,
    others (64 * h.due + i / 64) (lane i) = inputs (h.calls + 1) i

def CallsReady (h : Host) : Move → Prop
  | .event (.call c _) => Ready others inputs h c
  | _ => True

/-- The completions that are polled are those of the call that polls them, and a call that returns has
added its data to that of the others in the same call. -/
def Unpoisoned (h : Host) : Move → Prop
  | .event (.poll polled _) => ∀ w ∈ polled, w.1 = h.calls
  | .completionThrows polled _ => ∀ w ∈ polled, w.1 = h.calls
  | .event .ret => ∀ r ∈ h.running, ∀ i < r.call.count,
      r.loop.mem (r.call.dbuf / 4 + i) = r.input (r.call.sbuf / 4 + i) + inputs h.calls i
  | _ => True

instance (h : Host) : ∀ m, Decidable (Unpoisoned inputs h m)
  | .event (.poll _ _) => inferInstanceAs (Decidable (∀ w ∈ _, _))
  | .event .ret => inferInstanceAs (Decidable (∀ r ∈ h.running, _))
  | .completionThrows _ _ => inferInstanceAs (Decidable (∀ w ∈ _, _))
  | .event (.call _ _) => isTrue trivial
  | .event .fill => isTrue trivial
  | .event (.transmit _) => isTrue trivial
  | .event (.receive _ _) => isTrue trivial
  | .fillThrows => isTrue trivial
  | .postThrows _ => isTrue trivial
  | .pollThrows => isTrue trivial
  | .flush => isTrue trivial

def Sane (h : Host) : Prop :=
  ∀ r, h.running = some r → ∃ base k, Serves sentWords others h base k r ∧ ∀ i < r.call.count,
    others (64 * base + i / 64) (lane i) = inputs h.calls i

end Channel

section Steps

variable {sentWords others : Nat → AggregateH} {inputs : Nat → Nat → Value} {h h' : Host} {m : Move}
  {base : Nat} {k : Marks} {r : Running}

theorem sane_of_idle (hrunning : h.running = none) : Sane sentWords others inputs h := fun r hr => by
  rw [hrunning] at hr
  contradiction

theorem InCall.outstanding (hh : InCall h base k r) {w : Posted} (hw : w ∈ h.outstanding) :
    w.1 = h.calls := by
  have hqueued := hh.queued
  have hmap : ∀ (f : Nat → WorkRequest) (a b : Nat),
      w ∈ (List.Ico a b).map (fun i => (h.calls, f i)) → w.1 = h.calls := by
    intro f a b hmem
    obtain ⟨i, -, rfl⟩ := List.mem_map.1 hmem
    rfl
  rw [Host.outstanding, List.mem_append, List.mem_append] at hw
  rcases hw with (hw | hw) | hw
  · cases hd : w.2.direction with
    | recv =>
        have hdirected : w ∈ directed .recv h.completions := List.mem_filter.2 ⟨hw, decide_eq_true hd⟩
        rw [hqueued.received] at hdirected
        exact hmap _ _ _ hdirected
    | send =>
        have hdirected : w ∈ directed .send h.completions := List.mem_filter.2 ⟨hw, decide_eq_true hd⟩
        rw [hqueued.done] at hdirected
        exact hmap _ _ _ hdirected
  · rw [hqueued.recvs] at hw
    exact hmap _ _ _ hw
  · rw [hqueued.sends] at hw
    exact hmap _ _ _ hw

theorem mem_outstanding_of_polled {polled rest : List Posted}
    (hcompletions : ∀ d, directed d h.completions = directed d polled ++ directed d rest) {w : Posted}
    (hw : w ∈ polled) : w ∈ h.outstanding := by
  have hdirected : w ∈ directed w.2.direction h.completions := by
    rw [hcompletions]
    exact List.mem_append_left _ (List.mem_filter.2 ⟨hw, decide_eq_true rfl⟩)
  exact List.mem_append_left _ (List.mem_append_left _ (List.mem_filter.1 hdirected).1)

/-- A step of a call that began on a channel at rest, or such a beginning. -/
theorem Sane.event {e : Event} (hh : Sane sentWords others inputs h) (hstep : Step h e h')
    (hsurrounded : Surrounded sentWords others h (.event e))
    (hready : CallsReady others inputs h (.event e)) :
    Sane sentWords others inputs h' ∧ Unpoisoned inputs h (.event e) := by
  obtain ⟨hnetwork, hadmissible⟩ := hsurrounded
  cases hstep with
  | @call c mem hidle =>
      obtain ⟨hrests, hinStep⟩ := hready
      refine ⟨fun r hr => ?_, trivial⟩
      obtain rfl := Option.some.inj hr
      exact ⟨h.due, {}, hrests.call (hadmissible c mem rfl) mem, hinStep⟩
  | fill hrunning hcontinues hfill =>
      obtain ⟨base, k, hserves, hinStep⟩ := hh _ hrunning
      obtain ⟨k', hserves'⟩ := hserves.fill hfill
      refine ⟨fun r hr => ?_, trivial⟩
      obtain rfl := Option.some.inj hr
      exact ⟨base, k', hserves', hinStep⟩
  | poll hrunning hcompletions hbatch hcompletes hloop =>
      obtain ⟨base, k, hserves, hinStep⟩ := hh _ hrunning
      obtain ⟨k', hserves'⟩ := hserves.poll hcompletions hcompletes hloop
      refine ⟨fun r hr => ?_, fun w hw => ?_⟩
      · obtain rfl := Option.some.inj hr
        exact ⟨base, k', hserves', hinStep⟩
      · exact hserves.inCall.outstanding (mem_outstanding_of_polled hcompletions hw)
  | ret hrunning hends =>
      obtain ⟨base, k, hserves, hinStep⟩ := hh _ hrunning
      refine ⟨sane_of_idle rfl, fun r hr i hi => ?_⟩
      obtain rfl := Option.some.inj (hrunning.symm.trans hr)
      rw [(hserves.ret hends).2 i hi, result, hinStep i hi]
  | @transmit w rest words hsends hwords =>
      refine ⟨fun r hr => ?_, trivial⟩
      rw [packetSent_running] at hr
      obtain ⟨base, k, hserves, hinStep⟩ := hh r hr
      obtain ⟨k', hserves'⟩ := hserves.transmit hsends ((hwords r hr).symm.trans hnetwork)
      refine ⟨base, k', hserves', ?_⟩
      rwa [packetSent_calls]
  | receive =>
      obtain ⟨hlt, rfl, rfl⟩ := hnetwork
      refine ⟨fun r hr => ?_, trivial⟩
      have hrunning := packetReceived_running h (BitVec.ofNat 24 h.received)
        (sentWords h.received + others h.received)
      rw [hr] at hrunning
      obtain ⟨r', hr', -⟩ := Option.map_eq_some_iff.1 hrunning.symm
      obtain ⟨base, k, hserves, hinStep⟩ := hh r' hr'
      obtain ⟨k', mem, hserves'⟩ := hserves.receive hlt
      obtain rfl := Option.some.inj (hserves'.inCall.running.symm.trans hr)
      refine ⟨base, k', hserves', ?_⟩
      rwa [packetReceived_calls]

/-- The same for all moves: when a call throws, nothing is known of its channel. -/
theorem Sane.moves (hh : Sane sentWords others inputs h) (hmoves : Moves h m h')
    (hsurrounded : Surrounded sentWords others h m) (hready : CallsReady others inputs h m) :
    Sane sentWords others inputs h' ∧ Unpoisoned inputs h m := by
  cases hmoves with
  | event hstep => exact hh.event hstep hsurrounded hready
  | fillThrows => exact ⟨sane_of_idle rfl, trivial⟩
  | postThrows => exact ⟨sane_of_idle rfl, trivial⟩
  | pollThrows => exact ⟨sane_of_idle rfl, trivial⟩
  | completionThrows hrunning hpolled =>
      obtain ⟨base, k, hserves, -⟩ := hh _ hrunning
      refine ⟨sane_of_idle rfl, fun w hw => hserves.inCall.outstanding ?_⟩
      exact hpolled.mem_iff.2 (List.mem_append_left _ hw)
  | flush hidle => exact ⟨sane_of_idle hidle, trivial⟩

/-- **Failures.** In a run in which each call finds nothing of the earlier calls outstanding, and its
messages go out with those of the others in the same call, no completion of an earlier call is taken for
one of a later call, and a call that returns has the right sums. -/
theorem run_unpoisoned (sentWords others : Nat → AggregateH) (inputs : Nat → Nat → Value)
    {run : List (Move × Host)}
    (hrun : Along (fun h m h' => (Moves h m h' ∧ Surrounded sentWords others h m) ∧
      CallsReady others inputs h m) start run) :
    Along (fun h m _ => Unpoisoned inputs h m) start run :=
  hrun.imp (I := Sane sentWords others inputs)
    (fun _ _ _ hh hstep => (Sane.moves hh hstep.1.1 hstep.1.2 hstep.2).1)
    (fun _ _ _ hh hstep => (Sane.moves hh hstep.1.1 hstep.1.2 hstep.2).2)
    (sane_of_idle rfl)

end Steps

/-! ### A request that cannot be posted -/

namespace TwoCalls

open OneWord (call)

/-- A call whose data has no alignment. -/
def crooked : Allreduce := { call with sbuf := 0x100001 }

/-- A call with a second message. -/
def long : Allreduce := { call with count := 4097, separate := by decide, room := by decide }

def memory (data received : Value) : Memory := fun a =>
  if a = 0x40000 then data else if a = 0x105000 then swapBytes received else 0

/-- What happens, where the packets are those that the network has. -/
inductive Act where
  | call (c : Allreduce) (mem : Memory)
  | fill
  | poll (polled : List Posted)
  | ret
  | transmit
  | receive
  | fillThrows
  | postThrows (posted : Nat)
  | completionThrows (polled : List Posted)

def completions (polled : List Posted) (success : Bool) : List Completion :=
  polled.map fun w => ⟨w.2.wrId, success, chunkSize⟩

theorem length_completions (polled : List Posted) (success : Bool) :
    (completions polled success).length = polled.length :=
  List.length_map _

section Network

variable (own others : Nat → AggregateH)

def Act.move (h : Host) : Act → Move
  | .call c mem => .event (.call c mem)
  | .fill => .event .fill
  | .poll polled => .event (.poll polled (completions polled true))
  | .ret => .event .ret
  | .transmit => .event (.transmit (own h.sent))
  | .receive => .event (.receive (BitVec.ofNat 24 h.received) (own h.received + others h.received))
  | .fillThrows => .fillThrows
  | .postThrows k => .postThrows k
  | .completionThrows polled => .completionThrows polled (completions polled false)

def advance (h : Host) : Act → Host
  | .call c mem => { h with running := some ⟨c, mem, c.start mem, false⟩, calls := h.calls + 1 }
  | .fill =>
      match h.running with
      | some ⟨c, input, t, _⟩ =>
          match c.fill t with
          | .ok (t', posted) => { h.post posted with running := some ⟨c, input, t', true⟩ }
          | .error _ => h
      | none => h
  | .poll polled =>
      match h.running with
      | some ⟨c, input, t, _⟩ =>
          match (completions polled true).foldlM (c.complete polled.length) t with
          | .ok t' =>
              { h with
                running := some ⟨c, input, t', false⟩
                completions := h.completions.drop polled.length }
          | .error _ => h
      | none => h
  | .ret => { h with running := none }
  | .transmit =>
      match h.sends with
      | w :: rest => h.packetSent w rest
      | [] => h
  | .receive =>
      h.packetReceived (BitVec.ofNat 24 h.received) (own h.received + others h.received)
  | .fillThrows => { h with running := none }
  | .postThrows k =>
      match h.running with
      | some ⟨c, _, t, _⟩ =>
          match c.fill t with
          | .ok (_, posted) => { h.post (posted.take k) with running := none }
          | .error _ => h
      | none => h
  | .completionThrows polled =>
      { h with running := none, completions := h.completions.drop polled.length }

def Possible (h : Host) : Act → Prop
  | .call c _ => h.running.isNone = true ∧
      (c.sbuf + 4 * c.count ≤ c.dbuf ∧ c.sbuf + 4 * c.count ≤ c.ibBuf)
  | .fill => ∃ r ∈ h.running, r.polls = false ∧ r.call.Continues r.loop ∧
      (r.call.fill r.loop).toBool = true
  | .poll polled => ∃ r ∈ h.running, r.polls = true ∧
      h.completions = polled ++ h.completions.drop polled.length ∧ polled.length ≤ 2 * reqInFlight ∧
      ((completions polled true).foldlM (r.call.complete polled.length) r.loop).toBool = true
  | .ret => ∃ r ∈ h.running, r.polls = false ∧ ¬ r.call.Continues r.loop
  | .transmit => ∃ w ∈ h.sends.head?,
      ∀ r ∈ h.running, own h.sent = readPacket w.2.addr (h.sent % 64) r.loop.mem
  | .receive => h.received < h.sent
  | .fillThrows => ∃ r ∈ h.running, r.polls = false ∧ r.call.Continues r.loop ∧
      (r.call.fill r.loop).toBool = false
  | .postThrows k => ∃ r ∈ h.running, r.polls = false ∧ r.call.Continues r.loop ∧
      k < (((r.call.fill r.loop).toOption.map Prod.snd).getD []).length
  | .completionThrows polled => ∃ r ∈ h.running, r.polls = true ∧
      h.completions = polled ++ h.completions.drop polled.length ∧ polled.length ≤ 2 * reqInFlight ∧
      ((completions polled false).foldlM (r.call.complete polled.length) r.loop).toBool = false

instance (h : Host) : ∀ a, Decidable (Possible own h a)
  | .call _ _ => inferInstanceAs (Decidable (_ ∧ _ ∧ _))
  | .fill => inferInstanceAs (Decidable (∃ r ∈ h.running, _))
  | .poll _ => inferInstanceAs (Decidable (∃ r ∈ h.running, _))
  | .ret => inferInstanceAs (Decidable (∃ r ∈ h.running, _))
  | .transmit => inferInstanceAs (Decidable (∃ w ∈ h.sends.head?, ∀ r ∈ h.running, _))
  | .receive => inferInstanceAs (Decidable (_ < _))
  | .fillThrows => inferInstanceAs (Decidable (∃ r ∈ h.running, _))
  | .postThrows _ => inferInstanceAs (Decidable (∃ r ∈ h.running, _))
  | .completionThrows _ => inferInstanceAs (Decidable (∃ r ∈ h.running, _))

end Network

variable {own others : Nat → AggregateH} {h : Host}

theorem Possible.moves {a : Act} (ha : Possible own h a) :
    Moves h (a.move own others h) (advance own others h a) ∧
      Surrounded own others h (a.move own others h) := by
  cases a with
  | call c mem =>
      obtain ⟨hidle, hdbuf, hibBuf⟩ := ha
      refine ⟨.event (.call (Option.isNone_iff_eq_none.1 hidle)), trivial, fun c' mem' heq => ?_⟩
      obtain ⟨rfl, rfl⟩ := Event.call.inj heq
      exact ⟨Or.inl hdbuf, Or.inl hibBuf⟩
  | fill =>
      obtain ⟨⟨c, input, t, polls⟩, hrunning, hpolls, hcontinues, hok⟩ := ha
      obtain rfl : polls = false := hpolls
      rw [Option.mem_def] at hrunning
      obtain ⟨⟨t', posted⟩, hfill⟩ := Fallible.toBool_eq_true.1 hok
      refine ⟨?_, trivial, nofun⟩
      rw [advance, hrunning]
      dsimp only
      rw [hfill]
      exact .event (.fill hrunning hcontinues hfill)
  | poll polled =>
      obtain ⟨⟨c, input, t, polls⟩, hrunning, hpolls, hsplit, hbatch, hok⟩ := ha
      obtain rfl : polls = true := hpolls
      rw [Option.mem_def] at hrunning
      obtain ⟨t', hloop⟩ := Fallible.toBool_eq_true.1 hok
      refine ⟨?_, trivial, nofun⟩
      rw [advance, hrunning]
      dsimp only at hloop ⊢
      rw [hloop]
      rw [← length_completions polled true] at hloop hbatch
      refine .event (.poll hrunning (fun d => ?_) hbatch ?_ hloop)
      · rw [← directed_append, ← hsplit]
      · rw [completions, List.forall₂_map_right_iff, List.forall₂_same]
        exact fun w _ => ⟨rfl, rfl, fun _ => rfl⟩
  | ret =>
      obtain ⟨⟨c, input, t, polls⟩, hrunning, hpolls, hends⟩ := ha
      obtain rfl : polls = false := hpolls
      exact ⟨.event (.ret hrunning hends), trivial, nofun⟩
  | transmit =>
      obtain ⟨w, hw, hread⟩ := ha
      obtain ⟨rest, hsends⟩ := List.head?_eq_some_iff.1 hw
      refine ⟨?_, rfl, nofun⟩
      rw [advance, hsends]
      exact .event (.transmit hsends hread)
  | receive => exact ⟨.event .receive, ⟨ha, rfl, rfl⟩, nofun⟩
  | fillThrows =>
      obtain ⟨⟨c, input, t, polls⟩, hrunning, hpolls, hcontinues, hfails⟩ := ha
      obtain rfl : polls = false := hpolls
      obtain ⟨message, hfill⟩ := Fallible.toBool_eq_false.1 hfails
      exact ⟨.fillThrows hrunning hcontinues hfill, trivial⟩
  | postThrows k =>
      obtain ⟨⟨c, input, t, polls⟩, hrunning, hpolls, hcontinues, hk⟩ := ha
      obtain rfl : polls = false := hpolls
      rw [Option.mem_def] at hrunning
      refine ⟨?_, trivial⟩
      rw [advance, hrunning]
      dsimp only at hk ⊢
      cases hfill : c.fill t with
      | error message =>
          rw [hfill] at hk
          contradiction
      | ok filled =>
          rw [hfill] at hk
          exact .postThrows hrunning hcontinues hfill hk
  | completionThrows polled =>
      obtain ⟨⟨c, input, t, polls⟩, hrunning, hpolls, hsplit, hbatch, hfails⟩ := ha
      obtain rfl : polls = true := hpolls
      obtain ⟨message, hloop⟩ := Fallible.toBool_eq_false.1 hfails
      refine ⟨?_, trivial⟩
      rw [← length_completions polled false] at hloop hbatch
      refine .completionThrows hrunning ?_ hbatch ?_ hloop
      · rw [outstanding, ← List.append_assoc, ← List.append_assoc, ← hsplit]
      · rw [completions, List.forall₂_map_right_iff, List.forall₂_same]
        exact fun w _ => rfl

def first (value : Nat → Value) (seq : Nat) : AggregateH := fun w =>
  if seq % 64 = 0 ∧ w = 0 then value (seq / 64) else 0

/-- The first message is on its way when the receive for the second one cannot be posted. -/
def poisoned : List Act :=
  [.call long (memory 1 0), .fill, .poll [], .postThrows 0] ++
    (List.replicate 64 .transmit ++ List.replicate 64 .receive) ++
    [.call call (memory 5 11), .fill, .poll [(1, call.sendRequest 0), (1, call.recvRequest 0)], .ret]

def ours : Nat → AggregateH := first fun _ => 1

def theirs : Nat → AggregateH := first fun j => if j = 2 then 20 else 10

/-- What the others add in the first call, of two messages, and in the second one. -/
def inputs (n i : Nat) : Value :=
  theirs (64 * (if n = 1 then 0 else 2) + i / 64) (lane i)

def moves (acts : List Act) : List (Move × Host) :=
  runOfActs (fun h a => a.move ours theirs h) (advance ours theirs) start acts

/-- The second call takes the completions of the first one, and returns with its sum. -/
theorem returns_poisoned :
    Along (fun h m h' => Moves h m h' ∧ Surrounded ours theirs h m) start (moves poisoned) ∧
      ¬ Along (fun h m _ => Unpoisoned inputs h m) start (moves poisoned) ∧
      ((poisoned.take 134).foldl (advance ours theirs) start).completions.map Prod.fst = [1, 1] ∧
      ((poisoned.take 135).foldl (advance ours theirs) start).running.map
        (fun r => (r.loop.mem 0x80000, r.input 0x40000 + inputs 2 0)) = some (11, 25) :=
  ⟨Along.of_acts (P := Possible ours) (by decide +kernel) fun _ _ => Possible.moves, by decide +kernel,
    by decide +kernel, by decide +kernel⟩

def firstRequests (n : Nat) : List Posted := [(n, call.sendRequest 0), (n, call.recvRequest 0)]

def message : List Act := List.replicate 64 .transmit ++ List.replicate 64 .receive

/-- The first call throws before it posts anything. -/
def called : List Act := [.call crooked (memory 1 0), .fillThrows, .call long (memory 1 0)]

/-- The second one posts its first message. -/
def beginning : List Act := called ++ [.fill]

/-- That message is done when the receive for the second one cannot be posted. The completions of the
third call have an error. -/
def ending : List Act :=
  List.replicate 64 .receive ++
    [.poll (firstRequests 2), .postThrows 0, .call call (memory 2 0), .fill] ++ message ++
    [.completionThrows (firstRequests 3), .call call (memory 3 0), .fill] ++ message ++
    [.poll (firstRequests 4), .ret]

def failing : List Act := beginning ++ (List.replicate 64 .transmit ++ ending)

def ownWords : Nat → AggregateH := first fun j => BitVec.ofNat 32 (j + 1)

def otherWords : Nat → AggregateH := first fun j => BitVec.ofNat 32 (10 * (j + 1))

def otherInputs (n i : Nat) : Value := otherWords (64 * (n - 2) + i / 64) (lane i)

/-- An act is possible, and a call finds the channel at rest. -/
def Restful (h : Host) : Act → Prop
  | .call c mem => Possible ownWords h (.call c mem) ∧ h.recvs = [] ∧ h.sends = [] ∧
      h.completions = [] ∧ h.expected = none ∧ h.sent = 64 * h.due ∧ h.received = 64 * h.due ∧
      h.due = h.calls - 1
  | a => Possible ownWords h a

instance (h : Host) : ∀ a, Decidable (Restful h a)
  | .call _ _ => inferInstanceAs (Decidable (_ ∧ _))
  | .fill => inferInstanceAs (Decidable (Possible ownWords h .fill))
  | .poll polled => inferInstanceAs (Decidable (Possible ownWords h (.poll polled)))
  | .ret => inferInstanceAs (Decidable (Possible ownWords h .ret))
  | .transmit => inferInstanceAs (Decidable (Possible ownWords h .transmit))
  | .receive => inferInstanceAs (Decidable (Possible ownWords h .receive))
  | .fillThrows => inferInstanceAs (Decidable (Possible ownWords h .fillThrows))
  | .postThrows k => inferInstanceAs (Decidable (Possible ownWords h (.postThrows k)))
  | .completionThrows polled =>
      inferInstanceAs (Decidable (Possible ownWords h (.completionThrows polled)))

theorem Restful.possible {a : Act} (ha : Restful h a) : Possible ownWords h a := by
  cases a with
  | call c mem => exact ha.1
  | _ => exact ha

theorem Restful.ready {a : Act} (ha : Restful h a) :
    CallsReady otherWords otherInputs h (a.move ownWords otherWords h) := by
  cases a with
  | call c mem =>
      obtain ⟨⟨hidle, -⟩, hrecvs, hsends, hcompletions, hexpected, hsent, hreceived, hdue⟩ := ha
      refine ⟨⟨⟨Option.isNone_iff_eq_none.1 hidle, hrecvs, hsends, hcompletions, ?_⟩, hsent, hreceived,
        hexpected⟩, fun i _ => ?_⟩
      · refine ⟨?_, hsent.le, ?_⟩
        · rw [hsent, Nat.mul_div_cancel_left _ (by decide)]
          rfl
        · rw [hreceived, progress, hexpected]
          exact le_rfl
      · rw [hdue]
        rfl
  | _ => trivial

theorem along_transmits {w : Posted} {rest : List Posted} (n : Nat) (hsends : h.sends = w :: rest)
    (hfits : h.sent % 64 + n ≤ 64)
    (hwords : ∀ r ∈ h.running, ∀ j, h.sent ≤ j → j < h.sent + n →
      ownWords j = readPacket w.2.addr (j % 64) r.loop.mem) :
    Along (fun h a _ => Restful h a) h
      (runOf (advance ownWords otherWords) h (List.replicate n .transmit)) := by
  induction n generalizing h with
  | zero => trivial
  | succ n ih =>
      have hnext : advance ownWords otherWords h .transmit = h.packetSent w rest := by
        rw [advance, hsends]
      rw [List.replicate_succ, runOf, hnext]
      refine ⟨⟨w, by rw [hsends]; rfl, fun r hr => hwords r hr _ le_rfl (by omega)⟩, ?_⟩
      by_cases hn : n = 0
      · subst hn
        trivial
      · refine ih ?_ ?_ fun r hr j hle hlt => ?_
        · rw [packetSent, if_neg (by omega)]
          exact hsends
        · rw [packetSent_sent]
          omega
        · rw [packetSent_running] at hr
          rw [packetSent_sent] at hle hlt
          exact hwords r hr j (by omega) (by omega)

theorem words_long {t : Loop} {posted : List WorkRequest}
    (hfill : long.fill (long.start (memory 1 0)) = .ok (t, posted)) (hposted : posted ≠ []) {j : Nat}
    (hj : j < 64) : ownWords j = readPacket (long.sendRequest 0).addr (j % 64) t.mem := by
  rcases Allreduce.fill_ok hfill with ⟨-, hnone⟩ | ⟨next, toSend, mem, rfl, rfl, -, -, hconvert, -, rfl⟩
  · exact absurd hnone hposted
  · obtain ⟨hwritten, -⟩ := Allreduce.fill_written (c := long) (j := 0)
      ⟨Or.inl (by decide), Or.inl (by decide)⟩ (by decide) hconvert
    funext w
    have hw := w.isLt
    have hword : readPacket (long.sendRequest 0).addr (j % 64) mem w =
        swapBytes (mem (long.sendSlot 0 + (64 * (j % 64) + w.val))) := rfl
    have hx : 64 * (j % 64) + w.val < long.wordsAt 0 := by
      rw [Allreduce.lt_wordsAt, chunkWords, show long.count = 4097 from rfl]
      omega
    have hplace : long.sbuf / 4 + (chunkWords * 0 + (64 * (j % 64) + w.val)) =
        0x40000 + (64 * j + w.val) := by
      rw [show long.sbuf = 0x100000 from rfl]
      omega
    rw [hword, hwritten _ hx, swapBytes_swapBytes, hplace]
    change first _ j w = memory 1 0 (0x40000 + (64 * j + w.val))
    rw [first, memory, Nat.mod_eq_of_lt hj, Nat.div_eq_of_lt hj]
    by_cases hzero : j = 0 ∧ w = 0
    · obtain ⟨rfl, rfl⟩ := hzero
      rfl
    · rw [if_neg hzero, if_neg fun heq => hzero ⟨by omega, by apply Fin.ext; simp; omega⟩,
        if_neg (by omega)]

theorem running_beginning : ∃ t,
    (beginning.foldl (advance ownWords otherWords) start).running = some ⟨long, memory 1 0, t, true⟩ ∧
      ∀ j < 64, ownWords j = readPacket (long.sendRequest 0).addr (j % 64) t.mem := by
  have hlength : (long.fill (long.start (memory 1 0))).toOption.map (fun x => x.2.length) = some 2 := by
    decide +kernel
  obtain ⟨⟨t, posted⟩, hfill⟩ := Fallible.toBool_eq_true.1
    (show (long.fill (long.start (memory 1 0))).toBool = true by decide +kernel)
  refine ⟨t, ?_, fun j hj => words_long hfill ?_ hj⟩
  · have hrunning : (called.foldl (advance ownWords otherWords) start).running =
        some ⟨long, memory 1 0, long.start (memory 1 0), false⟩ := rfl
    rw [beginning, List.foldl_append, List.foldl_cons, List.foldl_nil, advance, hrunning]
    simp only [hfill]
  · rw [hfill] at hlength
    exact List.ne_nil_of_length_eq_add_one (Option.some.inj hlength)

/-- The fourth call returns with the sum of its own data. -/
theorem returns_after_failures :
    Along (fun h m h' => Moves h m h' ∧ Surrounded ownWords otherWords h m) start
        (runOfActs (fun h a => a.move ownWords otherWords h) (advance ownWords otherWords) start failing) ∧
      Along (fun h m _ => Unpoisoned otherInputs h m) start
        (runOfActs (fun h a => a.move ownWords otherWords h) (advance ownWords otherWords) start failing) ∧
      (failing.dropLast.foldl (advance ownWords otherWords) start).running.map
        (fun r => (r.loop.mem 0x80000, r.input 0x40000 + otherInputs 4 0)) = some (33, 33) := by
  let h₁ := beginning.foldl (advance ownWords otherWords) start
  have hposted : h₁.sends = [(2, long.sendRequest 0)] ∧ h₁.sent = 0 := by decide +kernel
  obtain ⟨hsends, hsent⟩ := hposted
  have hwords : ∀ r ∈ h₁.running, ∀ j, h₁.sent ≤ j → j < h₁.sent + 64 →
      ownWords j = readPacket (long.sendRequest 0).addr (j % 64) r.loop.mem := by
    intro r hr j _ hj
    obtain ⟨t, hrunning, hmem⟩ := running_beginning
    obtain rfl := Option.some.inj (hrunning.symm.trans hr)
    rw [hsent] at hj
    exact hmem j (by omega)
  have hrestful : Along (fun h a _ => Restful h a) start
      (runOf (advance ownWords otherWords) start failing) := by
    refine Along.runOf_append.2 ⟨by decide +kernel, Along.runOf_append.2 ⟨?_, by decide +kernel⟩⟩
    exact along_transmits 64 hsends (by rw [hsent]) hwords
  exact ⟨hrestful.of_acts fun _ _ ha => ha.possible.moves,
    run_unpoisoned ownWords otherWords otherInputs
      (hrestful.of_acts fun _ _ ha => ⟨ha.possible.moves, ha.ready⟩),
    by decide +kernel⟩

end TwoCalls

end Host

end ClientLib

end Mpitofino
