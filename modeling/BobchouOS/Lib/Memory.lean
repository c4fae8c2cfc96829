import Mathlib

namespace lib

/-- Byte-addressed memory. Addresses are unbounded; which of them exist is the
business of the program that uses the memory. -/
abbrev Mem := Nat → BitVec 8

namespace Mem

/-- The little-endian 64-bit word at an address. -/
def loadWord (m : Mem) (a : Nat) : BitVec 64 :=
  m (a + 7) ++ m (a + 6) ++ m (a + 5) ++ m (a + 4) ++ m (a + 3) ++ m (a + 2) ++ m (a + 1) ++ m a

def storeWord (m : Mem) (a : Nat) (v : BitVec 64) : Mem :=
  fun x => if a ≤ x ∧ x < a + 8 then v.extractLsb' (8 * (x - a)) 8 else m x

def memset (m : Mem) (a : Nat) (c : BitVec 8) (n : Nat) : Mem :=
  fun x => if a ≤ x ∧ x < a + n then c else m x

/-- The copy of `n` bytes between ranges that do not overlap. -/
def memcpy (m : Mem) (dst src n : Nat) : Mem :=
  fun x => if dst ≤ x ∧ x < dst + n then m (src + (x - dst)) else m x

/-- The `n` bytes from an address on. -/
def loadBytes (m : Mem) (a n : Nat) : List (BitVec 8) := (List.range n).map fun i => m (a + i)

/-- Bytes from elsewhere, copied to an address. -/
def storeBytes (m : Mem) (a : Nat) (bs : List (BitVec 8)) : Mem :=
  fun x => if a ≤ x ∧ x < a + bs.length then bs.getD (x - a) 0 else m x

variable {m m' : Mem} {a b n : Nat}

theorem loadWord_congr (h : ∀ x, a ≤ x → x < a + 8 → m' x = m x) :
    m'.loadWord a = m.loadWord a := by
  unfold loadWord
  rw [h (a + 7) (by omega) (by omega), h (a + 6) (by omega) (by omega),
    h (a + 5) (by omega) (by omega), h (a + 4) (by omega) (by omega),
    h (a + 3) (by omega) (by omega), h (a + 2) (by omega) (by omega),
    h (a + 1) (by omega) (by omega), h a (by omega) (by omega)]

theorem storeWord_of_outside (m : Mem) (v : BitVec 64) {x : Nat} (h : x < a ∨ a + 8 ≤ x) :
    m.storeWord a v x = m x := by
  unfold storeWord
  rw [if_neg (by omega)]

private theorem storeWord_byte (m : Mem) (a i : Nat) (v : BitVec 64) (hi : i < 8) :
    m.storeWord a v (a + i) = v.extractLsb' (8 * i) 8 := by
  unfold storeWord
  rw [if_pos (by omega), Nat.add_sub_cancel_left]

@[simp] theorem loadWord_storeWord (m : Mem) (a : Nat) (v : BitVec 64) :
    (m.storeWord a v).loadWord a = v := by
  have h0 := storeWord_byte m a 0 v (by omega)
  rw [Nat.add_zero] at h0
  unfold loadWord
  rw [h0, storeWord_byte m a 1 v (by omega), storeWord_byte m a 2 v (by omega),
    storeWord_byte m a 3 v (by omega), storeWord_byte m a 4 v (by omega),
    storeWord_byte m a 5 v (by omega), storeWord_byte m a 6 v (by omega),
    storeWord_byte m a 7 v (by omega)]
  apply BitVec.eq_of_getLsbD_eq
  intro i hi
  simp only [BitVec.getLsbD_append, BitVec.getLsbD_extractLsb']
  grind

theorem loadWord_storeWord_of_disjoint (m : Mem) (v : BitVec 64) (h : b + 8 ≤ a ∨ a + 8 ≤ b) :
    (m.storeWord a v).loadWord b = m.loadWord b :=
  loadWord_congr fun _ hlo hhi => storeWord_of_outside m v (by omega)

theorem memset_of_inside (m : Mem) (c : BitVec 8) {x : Nat} (hlo : a ≤ x) (hhi : x < a + n) :
    m.memset a c n x = c := by
  unfold memset
  rw [if_pos ⟨hlo, hhi⟩]

theorem memset_of_outside (m : Mem) (c : BitVec 8) {x : Nat} (h : x < a ∨ a + n ≤ x) :
    m.memset a c n x = m x := by
  unfold memset
  rw [if_neg (by omega)]

theorem memcpy_of_inside (m : Mem) (dst src : Nat) {x : Nat} (hlo : dst ≤ x) (hhi : x < dst + n) :
    m.memcpy dst src n x = m (src + (x - dst)) := by
  unfold memcpy
  rw [if_pos ⟨hlo, hhi⟩]

theorem memcpy_of_outside (m : Mem) (dst src : Nat) {x : Nat} (h : x < dst ∨ dst + n ≤ x) :
    m.memcpy dst src n x = m x := by
  unfold memcpy
  rw [if_neg (by omega)]

theorem storeBytes_of_outside (m : Mem) (bs : List (BitVec 8)) {x : Nat} (h : x < a ∨ a + bs.length ≤ x) :
    m.storeBytes a bs x = m x := by
  unfold storeBytes
  rw [if_neg (by omega)]

theorem storeBytes_of_inside (m : Mem) (bs : List (BitVec 8)) {i : Nat} (hi : i < bs.length) :
    m.storeBytes a bs (a + i) = bs.getD i 0 := by
  unfold storeBytes
  rw [if_pos (by omega), Nat.add_sub_cancel_left]

@[simp] theorem length_loadBytes (m : Mem) (a n : Nat) : (m.loadBytes a n).length = n := by simp [loadBytes]

theorem getD_loadBytes (m : Mem) {i : Nat} (hi : i < n) : (m.loadBytes a n).getD i 0 = m (a + i) := by
  simp [loadBytes, hi]

theorem loadBytes_congr (h : ∀ i < n, m' (a + i) = m (a + i)) : m'.loadBytes a n = m.loadBytes a n :=
  List.map_congr_left fun i hi => h i (List.mem_range.mp hi)

theorem loadBytes_eq {bs : List (BitVec 8)} (h : ∀ i < bs.length, m (a + i) = bs.getD i 0) :
    m.loadBytes a bs.length = bs := by
  apply List.ext_getElem (by simp)
  intro i hi hi'
  simp only [loadBytes, List.getElem_map, List.getElem_range]
  rw [h i hi']
  simp [hi']

end Mem

end lib
