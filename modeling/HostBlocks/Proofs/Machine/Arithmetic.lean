import HostBlocks.Network

/-!
# Arithmetic of a machine

A machine has numbers of so many bits, and an operation whose result is no such number is a fault. So is
one that loses bits, although a machine may drop them in silence: what goes through without a fault is
exact.
-/
namespace HostBlocks.Machine

inductive Fault where
  | overflow
  | underflow
  /-- A shift by as many places as the number has bits, or more. -/
  | shiftTooFar
  | bitsLost
  /-- A network longer than the addresses of its family. -/
  | lengthTooLong
  /-- A number is drawn from a range that has none. -/
  | emptyRange
deriving DecidableEq

variable {w : Nat}

def add (a b : BitVec w) : Except Fault (BitVec w) :=
  if a.uaddOverflow b then .error .overflow else .ok (a + b)

def sub (a b : BitVec w) : Except Fault (BitVec w) :=
  if a.usubOverflow b then .error .underflow else .ok (a - b)

def shiftLeft (a : BitVec w) (places : Nat) : Except Fault (BitVec w) :=
  if w ≤ places then .error .shiftTooFar
  else if (a <<< places) >>> places = a then .ok (a <<< places)
  else .error .bitsLost

def shiftRight (a : BitVec w) (places : Nat) : Except Fault (BitVec w) :=
  if w ≤ places then .error .shiftTooFar else .ok (a >>> places)

def narrow (v : Nat) (a : BitVec w) : Except Fault (BitVec v) :=
  if (a.setWidth v).toNat = a.toNat then .ok (a.setWidth v) else .error .bitsLost

theorem exists_add (a b : BitVec w) (h : a.toNat + b.toNat < 2 ^ w) :
    ∃ c, add a b = .ok c ∧ c.toNat = a.toNat + b.toNat := by
  have hno : ¬a.uaddOverflow b := by
    rw [BitVec.uaddOverflow, decide_eq_true_eq]
    omega
  exact ⟨a + b, if_neg hno, BitVec.toNat_add_of_not_uaddOverflow hno⟩

theorem exists_sub (a b : BitVec w) (h : b.toNat ≤ a.toNat) :
    ∃ c, sub a b = .ok c ∧ c.toNat = a.toNat - b.toNat := by
  have hno : ¬a.usubOverflow b := by
    rw [BitVec.usubOverflow, decide_eq_true_eq]
    omega
  exact ⟨a - b, if_neg hno, BitVec.toNat_sub_of_not_usubOverflow hno⟩

theorem exists_shiftLeft (a : BitVec w) {places : Nat} (hplaces : places < w)
    (h : a.toNat * 2 ^ places < 2 ^ w) :
    ∃ c, shiftLeft a places = .ok c ∧ c.toNat = a.toNat * 2 ^ places := by
  have hvalue : (a <<< places).toNat = a.toNat * 2 ^ places := by
    rw [BitVec.toNat_shiftLeft, Nat.shiftLeft_eq, Nat.mod_eq_of_lt h]
  have hback : (a <<< places) >>> places = a := by
    apply BitVec.eq_of_toNat_eq
    rw [BitVec.toNat_ushiftRight, hvalue, Nat.shiftRight_eq_div_pow,
      Nat.mul_div_cancel _ (Nat.two_pow_pos places)]
  refine ⟨a <<< places, ?_, hvalue⟩
  rw [shiftLeft, if_neg (Nat.not_le_of_lt hplaces), if_pos hback]

theorem exists_shiftRight (a : BitVec w) {places : Nat} (hplaces : places < w) :
    ∃ c, shiftRight a places = .ok c ∧ c.toNat = a.toNat >>> places :=
  ⟨a >>> places, if_neg (Nat.not_le_of_lt hplaces), BitVec.toNat_ushiftRight a places⟩

theorem exists_narrow (v : Nat) (a : BitVec w) (h : a.toNat < 2 ^ v) :
    ∃ c : BitVec v, narrow v a = .ok c ∧ c.toNat = a.toNat := by
  have hvalue : (a.setWidth v).toNat = a.toNat := by
    rw [BitVec.toNat_setWidth, Nat.mod_eq_of_lt h]
  exact ⟨a.setWidth v, if_pos hvalue, hvalue⟩

end HostBlocks.Machine
