import Mathlib.Data.BitVec
import Mathlib.Tactic.IntervalCases
import Mpitofino.Library.Fallible
import Mpitofino.Library.Pieces

/-!
# IPv4 addresses in text

`IPv4Addr(std::string)` matches the string with a regular expression of four numbers of up to three
digits with a `.` in between, which stands for any character there, and takes what the numbers match.
-/

namespace Mpitofino

namespace SimpleTypes

structure IPv4Addr where
  addr : Vector (BitVec 8) 4
  deriving DecidableEq

namespace IPv4Addr

abbrev Text := List (BitVec 8)

def dot : BitVec 8 := 0x2e

def isDigit (c : BitVec 8) : Bool := 0x30 ≤ c.toNat ∧ c.toNat ≤ 0x39

/-- `[0-9]{1,3}` -/
def number : Piece (BitVec 8) := ⟨isDigit, 1, 3⟩

/-- `.` is every character but the ends of lines. -/
def anyChar : Piece (BitVec 8) := ⟨fun c => c ≠ 0x0a ∧ c ≠ 0x0d, 1, 1⟩

def re : List (Piece (BitVec 8)) := [number, anyChar, number, anyChar, number, anyChar, number]

def atoi (s : Text) : Nat := s.foldl (fun v c => 10 * v + (c.toNat - 0x30)) 0

/-- One round of the loop over the groups. -/
def octet (group : Text) : Except String (BitVec 8) :=
  if atoi group > 255 then .error "Invalid format for IPv4 address" else .ok (BitVec.ofNat 8 (atoi group))

def ofString (s : Text) : Except String IPv4Addr :=
  match Piece.search re s with
  | some [m₁, _, m₂, _, m₃, _, m₄] => do
      let a₁ ← octet m₁
      let a₂ ← octet m₂
      let a₃ ← octet m₃
      let a₄ ← octet m₄
      return ⟨#v[a₁, a₂, a₃, a₄]⟩
  | _ => .error "Invalid format for IPv4 address"

/-- `%u` -/
def decimal (n : Nat) : Text := (Nat.toDigits 10 n).map fun c => BitVec.ofNat 8 c.toNat

def toText (a : IPv4Addr) : Text :=
  decimal a.addr[0].toNat ++ [dot] ++ decimal a.addr[1].toNat ++ [dot] ++ decimal a.addr[2].toNat ++
    [dot] ++ decimal a.addr[3].toNat

structure IsNumber (s : Text) : Prop where
  pos : 0 < s.length
  le : s.length ≤ 3
  digits : ∀ c ∈ s, isDigit c = true

/-- Four numbers up to 255 with dots in between, and the address of these numbers. -/
def Denotes (s : Text) (a : IPv4Addr) : Prop :=
  ∃ d₁ d₂ d₃ d₄, (IsNumber d₁ ∧ IsNumber d₂ ∧ IsNumber d₃ ∧ IsNumber d₄) ∧
    s = d₁ ++ [dot] ++ d₂ ++ [dot] ++ d₃ ++ [dot] ++ d₄ ∧
    (atoi d₁ ≤ 255 ∧ atoi d₂ ≤ 255 ∧ atoi d₃ ≤ 255 ∧ atoi d₄ ≤ 255) ∧
    a = ⟨#v[BitVec.ofNat 8 (atoi d₁), BitVec.ofNat 8 (atoi d₂), BitVec.ofNat 8 (atoi d₃),
      BitVec.ofNat 8 (atoi d₄)]⟩

/-- The characters that the pattern takes between the numbers are dots, or a number is too large. -/
def Unmistaken (s : Text) : Prop :=
  ∀ d₁ c₁ d₂ c₂ d₃ c₃ d₄, Piece.Preferred re s [d₁, c₁, d₂, c₂, d₃, c₃, d₄] →
    (c₁ = [dot] ∧ c₂ = [dot] ∧ c₃ = [dot]) ∨
      ¬ (atoi d₁ ≤ 255 ∧ atoi d₂ ≤ 255 ∧ atoi d₃ ≤ 255 ∧ atoi d₄ ≤ 255)

section Matching

variable {s d₁ d₂ d₃ d₄ : Text} {a : IPv4Addr} {ps : List (Piece (BitVec 8))} {parts : List Text}

theorem isNumber_iff : number.Matches s ↔ IsNumber s :=
  ⟨fun h => ⟨h.atLeast_le, h.le_atMost, h.accepts⟩, fun h => ⟨h.pos, h.le, h.digits⟩⟩

theorem preferred_number_dot (hd : IsNumber s) {rest : Text} (hrest : Piece.Preferred ps rest parts) :
    Piece.Preferred (number :: anyChar :: ps) (s ++ ([dot] ++ rest)) (s :: [dot] :: parts) := by
  refine Piece.Preferred.cons (Piece.Preferred.cons hrest (by decide) (Or.inl rfl)) (isNumber_iff.2 hd)
    (Or.inr fun x hx => ?_)
  obtain rfl := Option.some.inj hx
  decide

theorem preferred_dotted (h₁ : IsNumber d₁) (h₂ : IsNumber d₂) (h₃ : IsNumber d₃) (h₄ : IsNumber d₄) :
    Piece.Preferred re (d₁ ++ [dot] ++ d₂ ++ [dot] ++ d₃ ++ [dot] ++ d₄)
      [d₁, [dot], d₂, [dot], d₃, [dot], d₄] := by
  have hlast : Piece.Preferred [number] (d₄ ++ []) [d₄] :=
    Piece.Preferred.cons ⟨Piece.split_nil.2 ⟨rfl, rfl⟩, fun parts hparts => Or.inl
      (Piece.split_nil.1 hparts).2⟩ (isNumber_iff.2 h₄) (Or.inr nofun)
  have hall := preferred_number_dot h₁ (preferred_number_dot h₂ (preferred_number_dot h₃ hlast))
  simpa only [List.append_assoc, List.append_nil, re] using hall

theorem octet_eq_ok_iff {group : Text} {b : BitVec 8} :
    octet group = .ok b ↔ atoi group ≤ 255 ∧ b = BitVec.ofNat 8 (atoi group) := by
  rw [octet]
  split
  · exact iff_of_false nofun fun h => by omega
  · exact ⟨fun h => ⟨by omega, (Except.ok.inj h).symm⟩, fun h => congrArg _ h.2.symm⟩

/-- The address is made of the numbers of the preferred match. -/
theorem ofString_eq_ok_iff : ofString s = .ok a ↔
    ∃ d₁ c₁ d₂ c₂ d₃ c₃ d₄, Piece.Preferred re s [d₁, c₁, d₂, c₂, d₃, c₃, d₄] ∧
      (atoi d₁ ≤ 255 ∧ atoi d₂ ≤ 255 ∧ atoi d₃ ≤ 255 ∧ atoi d₄ ≤ 255) ∧
      a = ⟨#v[BitVec.ofNat 8 (atoi d₁), BitVec.ofNat 8 (atoi d₂), BitVec.ofNat 8 (atoi d₃),
        BitVec.ofNat 8 (atoi d₄)]⟩ := by
  simp only [← Piece.search_eq_some_iff]
  rw [ofString]
  constructor
  · intro h
    split at h
    · rename_i d₁ c₁ d₂ c₂ d₃ c₃ d₄ hsearch
      obtain ⟨a₁, h₁, h⟩ := Fallible.bind_eq_ok.1 h
      obtain ⟨a₂, h₂, h⟩ := Fallible.bind_eq_ok.1 h
      obtain ⟨a₃, h₃, h⟩ := Fallible.bind_eq_ok.1 h
      obtain ⟨a₄, h₄, h⟩ := Fallible.bind_eq_ok.1 h
      rw [octet_eq_ok_iff] at h₁ h₂ h₃ h₄
      refine ⟨d₁, c₁, d₂, c₂, d₃, c₃, d₄, hsearch, ⟨h₁.1, h₂.1, h₃.1, h₄.1⟩, ?_⟩
      rw [← h₁.2, ← h₂.2, ← h₃.2, ← h₄.2]
      exact (Except.ok.inj h).symm
    · contradiction
  · rintro ⟨d₁, c₁, d₂, c₂, d₃, c₃, d₄, hsearch, ⟨h₁, h₂, h₃, h₄⟩, rfl⟩
    rw [hsearch]
    dsimp only
    rw [octet_eq_ok_iff.2 ⟨h₁, rfl⟩, octet_eq_ok_iff.2 ⟨h₂, rfl⟩, octet_eq_ok_iff.2 ⟨h₃, rfl⟩,
      octet_eq_ok_iff.2 ⟨h₄, rfl⟩]
    rfl

theorem ofString_of_denotes (h : Denotes s a) : ofString s = .ok a := by
  obtain ⟨d₁, d₂, d₃, d₄, ⟨h₁, h₂, h₃, h₄⟩, rfl, hle, rfl⟩ := h
  exact ofString_eq_ok_iff.2 ⟨d₁, _, d₂, _, d₃, _, d₄, preferred_dotted h₁ h₂ h₃ h₄, hle, rfl⟩

theorem denotes_of_split (h : Piece.Split re s [d₁, [dot], d₂, [dot], d₃, [dot], d₄])
    (hle : atoi d₁ ≤ 255 ∧ atoi d₂ ≤ 255 ∧ atoi d₃ ≤ 255 ∧ atoi d₄ ≤ 255) :
    Denotes s ⟨#v[BitVec.ofNat 8 (atoi d₁), BitVec.ofNat 8 (atoi d₂), BitVec.ofNat 8 (atoi d₃),
      BitVec.ofNat 8 (atoi d₄)]⟩ := by
  obtain ⟨rfl, hparts⟩ := h
  simp only [re, List.forall₂_cons, isNumber_iff] at hparts
  obtain ⟨h₁, -, h₂, -, h₃, -, h₄, -⟩ := hparts
  exact ⟨d₁, d₂, d₃, d₄, ⟨h₁, h₂, h₃, h₄⟩, by simp, hle, rfl⟩

theorem accepts_iff_unmistaken : (∀ a, ofString s = .ok a ↔ Denotes s a) ↔ Unmistaken s := by
  constructor
  · intro hiff d₁ c₁ d₂ c₂ d₃ c₃ d₄ hpreferred
    rw [or_iff_not_imp_right, not_not]
    intro hle
    have hok := ofString_eq_ok_iff.2 ⟨d₁, c₁, d₂, c₂, d₃, c₃, d₄, hpreferred, hle, rfl⟩
    obtain ⟨e₁, e₂, e₃, e₄, ⟨h₁, h₂, h₃, h₄⟩, rfl, -⟩ := (hiff _).1 hok
    have heq := hpreferred.eq (preferred_dotted h₁ h₂ h₃ h₄)
    simp only [List.cons.injEq] at heq
    exact ⟨heq.2.1, heq.2.2.2.1, heq.2.2.2.2.2.1⟩
  · refine fun hunmistaken a => ⟨fun hok => ?_, ofString_of_denotes⟩
    obtain ⟨d₁, c₁, d₂, c₂, d₃, c₃, d₄, hpreferred, hle, rfl⟩ := ofString_eq_ok_iff.1 hok
    obtain ⟨rfl, rfl, rfl⟩ := (hunmistaken _ _ _ _ _ _ _ hpreferred).resolve_right (not_not.2 hle)
    exact denotes_of_split hpreferred.split hle

end Matching

/-! ### The text of an address -/

theorem atoi_decimal : ∀ n < 256, atoi (decimal n) = n := by
  decide +kernel

theorem isNumber_decimal : ∀ n < 256, IsNumber (decimal n) := by
  have hall : ∀ n < 256, 0 < (decimal n).length ∧ (decimal n).length ≤ 3 ∧
      (decimal n).all isDigit = true := by
    decide +kernel
  intro n hn
  obtain ⟨hpos, hle, hdigits⟩ := hall n hn
  exact ⟨hpos, hle, List.all_eq_true.1 hdigits⟩

theorem denotes_toText (a : IPv4Addr) : Denotes (toText a) a := by
  have hnumber : ∀ b : BitVec 8, IsNumber (decimal b.toNat) := fun b => isNumber_decimal _ b.isLt
  have hvalue : ∀ b : BitVec 8, atoi (decimal b.toNat) = b.toNat := fun b => atoi_decimal _ b.isLt
  have hle : ∀ b : BitVec 8, atoi (decimal b.toNat) ≤ 255 := by
    intro b
    have hlt := b.isLt
    rw [hvalue]
    omega
  refine ⟨_, _, _, _, ⟨hnumber _, hnumber _, hnumber _, hnumber _⟩, rfl, ⟨hle _, hle _, hle _, hle _⟩, ?_⟩
  simp only [hvalue, BitVec.ofNat_toNat, BitVec.setWidth_eq]
  obtain ⟨addr⟩ := a
  refine congrArg _ (Vector.ext fun i hi => ?_)
  interval_cases i <;> rfl

/-- **Addresses.** A string is accepted exactly when it is in the grammar, with the address of its
numbers, if and only if the pattern takes no other character for a dot; and the text of an address is
accepted as the address. -/
theorem ofString_iff (s : Text) (a : IPv4Addr) :
    ((∀ a, ofString s = .ok a ↔ Denotes s a) ↔ Unmistaken s) ∧ ofString (toText a) = .ok a :=
  ⟨accepts_iff_unmistaken, ofString_of_denotes (denotes_toText a)⟩

namespace Mistyped

/-- `10.0.0100` -/
def text : Text := [0x31, 0x30, 0x2e, 0x30, 0x2e, 0x30, 0x31, 0x30, 0x30]

/-- It is accepted as `10.0.1.0`. -/
theorem text_accepted : (ofString text).toOption = some ⟨#v[10, 0, 1, 0]⟩ ∧
    ¬ ∀ a, ofString text = .ok a ↔ Denotes text a := by
  refine ⟨by decide +kernel, fun h => ?_⟩
  have hsearch : Piece.search re text =
      some [[0x31, 0x30], [dot], [0x30], [dot], [0x30, 0x31], [0x30], [0x30]] := by
    decide +kernel
  rcases accepts_iff_unmistaken.1 h _ _ _ _ _ _ _ (Piece.search_eq_some_iff.1 hsearch) with hdots | hlarge
  · exact absurd hdots (by decide)
  · exact hlarge (by decide)

end Mistyped

end IPv4Addr

end SimpleTypes

end Mpitofino
