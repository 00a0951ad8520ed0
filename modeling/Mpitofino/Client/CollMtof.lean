import Mathlib.Algebra.Group.Nat.Defs
import Mathlib.Data.Fintype.Card
import Mathlib.Data.List.Nodup

/-!
# Tags of the OpenMPI component

A module of the component numbers the channels of a communicator, one for each datatype. The tag of a
channel is its number added to the base of the module, which is made of the communicator id and a hash
of the command line.
-/

namespace Mpitofino

/-- `mpitofino_tag_t`. -/
abbrev TagT := BitVec 64

namespace CollMtof

inductive Datatype where
  | int32
  deriving DecidableEq

instance : Fintype Datatype := ⟨{.int32}, fun dtype => by cases dtype; exact Finset.mem_singleton_self _⟩

structure Channel where
  dtype : Datatype
  tag : TagT

/-- `mca_coll_mtof_module_t`. -/
structure Module where
  channelTagBase : BitVec 64
  channels : List Channel

def hashChar (val : BitVec 32) (c : BitVec 8) : BitVec 32 :=
  let val := val ^^^ val <<< 7
  let val := val ^^^ val <<< 20
  val ^^^ c.signExtend 32

/-- The hash of the first 4096 characters. -/
def getAppNameHash (cmdline : List (BitVec 8)) : BitVec 32 :=
  (cmdline.take 4096).foldl hashChar 0xaa55aa55

/-- The sum is computed before the shift. -/
def channelTagBase (appNameHash cid : BitVec 32) : BitVec 64 :=
  (cid.setWidth 64 + appNameHash.setWidth 64) <<< 32

def commQuery (cmdline : List (BitVec 8)) (cid : BitVec 32) : Module :=
  ⟨channelTagBase (getAppNameHash cmdline) cid, []⟩

def generateTag (base discriminator : BitVec 64) : TagT := base + discriminator

def getChannel (m : Module) (dtype : Datatype) : TagT × Module :=
  match m.channels.find? fun ch => ch.dtype = dtype with
  | some ch => (ch.tag, m)
  | none =>
      let newTag := generateTag m.channelTagBase (BitVec.ofNat 64 m.channels.length)
      (newTag, { m with channels := m.channels ++ [⟨dtype, newTag⟩] })

/-- The channels have their numbers, and one datatype each. -/
structure Numbered (m : Module) : Prop where
  tags : ∀ i ch, m.channels[i]? = some ch →
    ch.tag = generateTag m.channelTagBase (BitVec.ofNat 64 i)
  dtypes : (m.channels.map Channel.dtype).Nodup

theorem numbered_commQuery (cmdline : List (BitVec 8)) (cid : BitVec 32) :
    Numbered (commQuery cmdline cid) :=
  ⟨fun _ _ h => by contradiction, List.nodup_nil⟩

theorem Numbered.getChannel {m : Module} (h : Numbered m) (dtype : Datatype) :
    Numbered (getChannel m dtype).2 ∧
      (getChannel m dtype).2.channelTagBase = m.channelTagBase ∧
      m.channels <+: (getChannel m dtype).2.channels ∧
      ⟨dtype, (getChannel m dtype).1⟩ ∈ (getChannel m dtype).2.channels := by
  rw [CollMtof.getChannel]
  split
  · rename_i ch hfind
    have hdtype := List.find?_some hfind
    rw [decide_eq_true_eq] at hdtype
    exact ⟨h, rfl, List.prefix_refl _, hdtype ▸ List.mem_of_find?_eq_some hfind⟩
  · rename_i hnone
    refine ⟨⟨fun i ch hch => ?_, ?_⟩, rfl, List.prefix_append _ _,
      List.mem_append_right _ (List.mem_singleton_self _)⟩
    · dsimp only at hch ⊢
      rcases Nat.lt_trichotomy i m.channels.length with hlt | rfl | hgt
      · rw [List.getElem?_append_left hlt] at hch
        exact h.tags i ch hch
      · rw [List.getElem?_concat_length] at hch
        rw [← Option.some.inj hch]
      · rw [List.getElem?_eq_none (by rw [List.length_append]; exact hgt)] at hch
        contradiction
    · dsimp only
      rw [List.map_append, List.nodup_append]
      refine ⟨h.dtypes, List.nodup_singleton _, fun d hd d' hd' => ?_⟩
      obtain ⟨ch, hch, rfl⟩ := List.mem_map.1 hd
      rintro rfl
      refine absurd (List.find?_eq_none.1 hnone ch hch) (not_not.2 (decide_eq_true ?_))
      exact List.mem_singleton.1 hd'

theorem toNat_generateTag {appNameHash cid : BitVec 32} {idx : BitVec 64} (hidx : idx.toNat < 2 ^ 32) :
    (generateTag (channelTagBase appNameHash cid) idx).toNat =
      (appNameHash + cid).toNat * 2 ^ 32 + idx.toNat := by
  have hcid := cid.isLt
  have hhash := appNameHash.isLt
  simp only [generateTag, channelTagBase, BitVec.toNat_add, BitVec.toNat_shiftLeft,
    BitVec.toNat_setWidth, Nat.shiftLeft_eq]
  omega

theorem generateTag_eq_iff {appNameHash appNameHash' cid cid' : BitVec 32} {idx idx' : BitVec 64}
    (hidx : idx.toNat < 2 ^ 32) (hidx' : idx'.toNat < 2 ^ 32) :
    generateTag (channelTagBase appNameHash cid) idx =
        generateTag (channelTagBase appNameHash' cid') idx' ↔
      appNameHash + cid = appNameHash' + cid' ∧ idx = idx' := by
  rw [← BitVec.toNat_inj, toNat_generateTag hidx, toNat_generateTag hidx', ← BitVec.toNat_inj,
    ← BitVec.toNat_inj]
  omega

/-- A module after channels for some datatypes were asked for. -/
def afterCalls (m : Module) (dtypes : List Datatype) : Module :=
  dtypes.foldl (fun m dtype => (getChannel m dtype).2) m

theorem Numbered.afterCalls {m : Module} (h : Numbered m) (dtypes : List Datatype) :
    Numbered (afterCalls m dtypes) ∧ (afterCalls m dtypes).channelTagBase = m.channelTagBase := by
  induction dtypes generalizing m with
  | nil => exact ⟨h, rfl⟩
  | cons dtype dtypes ih =>
      obtain ⟨hnumbered, hbase, -⟩ := h.getChannel dtype
      obtain ⟨hlast, hkept⟩ := ih hnumbered
      exact ⟨hlast, hkept.trans hbase⟩

/-- A module has at most one channel, as there is one datatype, and its tag is the base. -/
theorem Numbered.tag_eq {m : Module} (h : Numbered m) {ch : Channel} (hch : ch ∈ m.channels) :
    ch.tag = generateTag m.channelTagBase 0 := by
  obtain ⟨i, hi⟩ := List.mem_iff_getElem?.1 hch
  have hlength : m.channels.length ≤ 1 := by
    have hcard := List.Nodup.length_le_card h.dtypes
    rwa [List.length_map] at hcard
  have hlt := (List.getElem?_eq_some_iff.1 hi).1
  obtain rfl : i = 0 := by omega
  exact h.tags 0 ch hi

/-- Whatever channels two modules were asked for, one of each has the same tag exactly when the sums of
hash and communicator id are the same. -/
theorem given_tags_eq_iff (cmdline cmdline' : List (BitVec 8)) (cid cid' : BitVec 32)
    (dtypes dtypes' : List Datatype) :
    ∀ ch ∈ (afterCalls (commQuery cmdline cid) dtypes).channels,
      ∀ ch' ∈ (afterCalls (commQuery cmdline' cid') dtypes').channels,
        ch.tag = ch'.tag ↔ getAppNameHash cmdline + cid = getAppNameHash cmdline' + cid' := by
  intro ch hch ch' hch'
  obtain ⟨hnumbered, hbase⟩ := (numbered_commQuery cmdline cid).afterCalls dtypes
  obtain ⟨hnumbered', hbase'⟩ := (numbered_commQuery cmdline' cid').afterCalls dtypes'
  rw [hnumbered.tag_eq hch, hnumbered'.tag_eq hch', hbase, hbase', commQuery, commQuery]
  exact (generateTag_eq_iff (by decide) (by decide)).trans (and_iff_left rfl)

/-- **Tags.** Channels that differ in application, communicator or number have different tags exactly
when they are of one application, or their numbers or their sums of hash and communicator id differ. -/
theorem generateTag_ne_iff (appNameHash appNameHash' cid cid' : BitVec 32) (idx idx' : BitVec 64)
    (hidx : cid.toNat + idx.toNat < 2 ^ 32) (hidx' : cid'.toNat + idx'.toNat < 2 ^ 32) :
    ((appNameHash, cid, idx) ≠ (appNameHash', cid', idx') →
        generateTag (channelTagBase appNameHash cid) idx ≠
          generateTag (channelTagBase appNameHash' cid') idx') ↔
      appNameHash = appNameHash' ∨ idx ≠ idx' ∨ appNameHash + cid ≠ appNameHash' + cid' := by
  rw [Ne, Ne, generateTag_eq_iff (by omega) (by omega), Prod.mk.injEq, Prod.mk.injEq]
  constructor
  · intro h
    by_contra hno
    simp only [not_or, not_not] at hno
    obtain ⟨hhash, hidx, hsum⟩ := hno
    exact h (fun heq => hhash heq.1) ⟨hsum, hidx⟩
  · rintro (rfl | hidx | hsum) hne ⟨hsum', hidx'⟩
    · exact hne ⟨rfl, (BitVec.add_right_inj _).1 hsum', hidx'⟩
    · exact hidx hidx'
    · exact hsum hsum'

namespace TwoApplications

/-- Two communicators of one application, whose tags differ. -/
theorem tags_of_one : generateTag (channelTagBase 0x5eed 0) 0 ≠ generateTag (channelTagBase 0x5eed 3) 0 :=
  (generateTag_ne_iff 0x5eed 0x5eed 0 3 0 0 (by decide) (by decide)).2 (Or.inl rfl) (by decide)

/-- The communicator 1 of one application and the communicator 0 of another one have the same tag. -/
theorem tags_of_two : (0x5eed : BitVec 32) ≠ 0x5eee ∧
    (1 : BitVec 32).toNat + (0 : BitVec 64).toNat < 2 ^ 32 ∧
    (0 : BitVec 32).toNat + (0 : BitVec 64).toNat < 2 ^ 32 ∧
    generateTag (channelTagBase 0x5eed 1) 0 = generateTag (channelTagBase 0x5eee 0) 0 := by
  decide

end TwoApplications

end CollMtof

end Mpitofino
