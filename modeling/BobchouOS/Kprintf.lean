import BobchouOS.Lib.Wp
import Mathlib

open lib

namespace bobchouos

namespace Kprintf

/-- The characters sent to the UART. -/
abbrev Console := List Char

def uart_putc (c : Char) : Prog Console Unit := modify (· ++ [c])

/-- `digits`, without its terminator. -/
def digits : List Char := "0123456789abcdef".toList

/-- Size of `buf` in `print_uint`. -/
def BUF_SIZE : Nat := 20

/-- The first loop of `print_uint`, with `buf[0..i)` as a list. A write behind the
end of the buffer or a read behind the digits is undefined. -/
def collect (base : Nat) : Nat → Nat → List Char → Prog Console (List Char)
  | 0, _, _ => Prog.diverge
  | fuel + 1, val, buf =>
    match digits[val % base]? with
    | none => Prog.undefined
    | some c =>
      if buf.length < BUF_SIZE then
        if val / base ≠ 0 then collect base fuel (val / base) (buf ++ [c]) else pure (buf ++ [c])
      else
        Prog.undefined

/-- The second loop of `print_uint`, down from `i`. -/
def putBack (buf : List Char) : Nat → Prog Console Unit
  | 0 => pure ()
  | i + 1 =>
    match buf[i]? with
    | none => Prog.undefined
    | some c => do
      uart_putc c
      putBack buf i

/-- `print_uint`. A value of 64 bits has no more than 64 digits. -/
def print_uint (val : BitVec 64) (base : Nat) : Prog Console Unit := do
  let buf ← collect base 64 val.toNat []
  putBack buf buf.length

/-- `print_int`. The negation of the least `long` is undefined. -/
def print_int (val : BitVec 64) (base : Nat) : Prog Console Unit :=
  if base ≠ 10 ∨ 0 ≤ val.toInt then
    print_uint val base
  else do
    uart_putc '-'
    if val = BitVec.intMin 64 then Prog.undefined else print_uint (-val) base

/-- The number that a string of digits stands for, most significant first. -/
def readDigits (base : Nat) (l : List Char) : Option Nat :=
  l.foldlM (fun n c => (digits.idxOf? c).bind fun d => if d < base then some (n * base + d) else none) 0

/-- The integer that a string of decimal digits with an optional sign stands for. -/
def readInt : List Char → Option Int
  | '-' :: l => (readDigits 10 l).map fun (n : Nat) => -(n : Int)
  | l => (readDigits 10 l).map fun (n : Nat) => (n : Int)

/-- The digits of a number in the order the loop finds them. Zero has one. -/
def digitsOf (base n : Nat) : List Nat := if n = 0 then [0] else Nat.digits base n

/-- `digits[d]`. -/
def digitChar (d : Nat) : Char := digits.getD d '0'

variable {base n fuel : Nat} {buf : List Char} {out : Console}

theorem getElem?_digits {d : Nat} (hd : d < 16) : digits[d]? = some (digitChar d) := by
  rw [digitChar, List.getD_eq_getElem?_getD, List.getElem?_eq_getElem (show d < digits.length from hd), Option.getD_some]

theorem idxOf?_digitChar : ∀ d < 16, digits.idxOf? (digitChar d) = some d := by decide

theorem digitsOf_div (hbase : 1 < base) (n : Nat) :
    digitsOf base n = n % base :: if n / base ≠ 0 then digitsOf base (n / base) else [] := by
  by_cases hn : n = 0
  · simp [digitsOf, hn]
  · rw [digitsOf, if_neg hn, Nat.digits_eq_cons_digits_div hbase hn]
    by_cases hdiv : n / base = 0
    · simp [hdiv]
    · simp [digitsOf, hdiv]

theorem length_digitsOf_le {k : Nat} (hbase : 1 < base) (hn : n < base ^ k) (hk : 0 < k) : (digitsOf base n).length ≤ k := by
  unfold digitsOf
  split
  · exact hk
  · exact (Nat.digits_length_le_iff hbase n).mpr hn

theorem collect_spec (hbase : 1 < base) (hle : base ≤ 16) (hfuel : (digitsOf base n).length ≤ fuel)
    (hroom : buf.length + (digitsOf base n).length ≤ BUF_SIZE) :
    wp (collect base fuel n buf) (fun buf' out' => buf' = buf ++ (digitsOf base n).map digitChar ∧ out' = out) out := by
  induction fuel generalizing n buf with
  | zero =>
    rw [digitsOf_div hbase] at hfuel
    cases hfuel
  | succ fuel ih =>
    have hdigit : n % base < 16 := (Nat.mod_lt n (by omega)).trans_le hle
    rw [digitsOf_div hbase] at hfuel hroom ⊢
    simp only [List.length_cons] at hfuel hroom
    rw [collect, getElem?_digits hdigit]
    simp only [wp_ite, wp_pure]
    refine ⟨fun _ => ⟨fun hdiv => ?_, fun hdiv => ?_⟩, fun hfull => absurd (by omega) hfull⟩
    · rw [if_pos hdiv] at hfuel hroom ⊢
      refine wp_mono (ih (by omega) (by rw [List.length_append, List.length_singleton]; omega)) ?_
      rintro buf' out' ⟨rfl, rfl⟩
      simp
    · rw [if_neg hdiv]
      simp

theorem putBack_spec {i : Nat} (hi : i ≤ buf.length) :
    wp (putBack buf i) (fun _ out' => out' = out ++ (buf.take i).reverse) out := by
  induction i generalizing out with
  | zero => simp [putBack]
  | succ i ih =>
    rw [putBack, List.getElem?_eq_getElem hi]
    simp only [uart_putc, wp_bind, wp_modify]
    refine wp_mono (ih (Nat.le_of_succ_le hi)) ?_
    rintro _ out' rfl
    rw [List.take_succ_eq_append_getElem hi, List.reverse_append, List.reverse_singleton, List.append_assoc]

/-- What `print_uint` sends. -/
def printed (base n : Nat) : List Char := ((digitsOf base n).map digitChar).reverse

theorem print_uint_spec (hbase : base = 10 ∨ base = 16) (val : BitVec 64) :
    wp (print_uint val base) (fun _ out' => out' = out ++ printed base val.toNat) out := by
  have hlen : (digitsOf base val.toNat).length ≤ BUF_SIZE := by
    rcases hbase with rfl | rfl
    · exact length_digitsOf_le (by omega) (val.isLt.trans (by decide)) (by decide)
    · exact length_digitsOf_le (by omega) (val.isLt.trans (by decide)) (by decide)
  have hfuel : BUF_SIZE ≤ 64 := by decide
  simp only [print_uint, wp_bind]
  refine wp_mono (collect_spec (by omega) (by omega) (hlen.trans hfuel) (by simpa using hlen)) ?_
  rintro buf out' ⟨rfl, rfl⟩
  refine wp_mono (putBack_spec (Nat.le_refl _)) ?_
  rintro _ out' rfl
  rw [List.take_length]
  simp [printed]

/-- Reading undoes printing, digit by digit from the most significant one. -/
theorem readDigits_chars {l : List Nat} (hle : base ≤ 16) (hl : ∀ d ∈ l, d < base) :
    readDigits base (l.map digitChar).reverse = some (Nat.ofDigits base l) := by
  induction l with
  | nil => rfl
  | cons d l ih =>
    have hd := hl d (by simp)
    have ih := ih fun e he => hl e (by simp [he])
    unfold readDigits at ih ⊢
    rw [List.map_cons, List.reverse_cons, List.foldlM_append, ih]
    simp only [List.foldlM_cons, List.foldlM_nil, Option.bind_eq_bind, Option.bind_some,
      idxOf?_digitChar d (by omega), if_pos hd, Nat.ofDigits_cons]
    simp [Nat.mul_comm, Nat.add_comm]

theorem digitsOf_lt (hbase : 1 < base) {d : Nat} (hd : d ∈ digitsOf base n) : d < base := by
  unfold digitsOf at hd
  split at hd
  · rw [List.mem_singleton.mp hd]
    omega
  · exact Nat.digits_lt_base hbase hd

theorem ofDigits_digitsOf (base n : Nat) : Nat.ofDigits base (digitsOf base n) = n := by
  unfold digitsOf
  split
  · rename_i hzero
    simp [hzero]
  · exact Nat.ofDigits_digits base n

theorem readDigits_printed (hbase : 1 < base) (hle : base ≤ 16) (n : Nat) : readDigits base (printed base n) = some n := by
  rw [printed, readDigits_chars hle fun d hd => digitsOf_lt hbase hd, ofDigits_digitsOf]

/-- A leading zero stands alone. -/
theorem head_printed (hbase : 1 < base) (hle : base ≤ 16) (hhead : (printed base n).head? = some '0') : n = 0 := by
  by_contra hn
  have hne : Nat.digits base n ≠ [] := Nat.digits_ne_nil_iff_ne_zero.mpr hn
  rw [printed, digitsOf, if_neg hn, List.head?_reverse, List.getLast?_map, List.getLast?_eq_some_getLast hne,
    Option.map_some, Option.some_inj] at hhead
  have hlast := Nat.getLast_digit_ne_zero base hn
  have hlt := Nat.digits_lt_base hbase (List.getLast_mem hne)
  have hidx := idxOf?_digitChar _ (hlt.trans_le hle)
  rw [hhead] at hidx
  exact hlast (Option.some_inj.mp hidx).symm

theorem printed_ne_nil (base n : Nat) : printed base n ≠ [] := by
  unfold printed digitsOf
  split
  · simp
  · rename_i hn
    simpa using Nat.digits_ne_nil_iff_ne_zero.mpr hn

/-- No digit is a sign. -/
theorem readInt_printed (n : Nat) : readInt (printed 10 n) = some (n : Int) := by
  have hread := readDigits_printed (show 1 < 10 by decide) (by decide) n
  unfold readInt
  split
  · rename_i l heq
    rw [heq] at hread
    have hsign : digits.idxOf? '-' = none := by decide
    simp [readDigits, hsign] at hread
  · rw [hread, Option.map_some]

theorem toNat_of_nonneg {x : BitVec 64} (hx : 0 ≤ x.toInt) : (x.toNat : Int) = x.toInt := by
  rw [BitVec.toInt_eq_toNat_cond] at hx ⊢
  have hlt := x.isLt
  split at hx <;> omega

theorem print_int_spec (n : BitVec 32) :
    wp (print_int (n.signExtend 64) 10) (fun _ out' => ∃ l, out' = out ++ l ∧ readInt l = some n.toInt) out := by
  have hint : (n.signExtend 64).toInt = n.toInt := BitVec.toInt_signExtend_of_le (by decide)
  have hbounds := BitVec.le_toInt n
  have hlt := BitVec.toInt_lt (x := n)
  simp only [print_int, wp_ite, uart_putc, wp_bind, wp_modify]
  rw [hint]
  refine ⟨fun hor => wp_mono (print_uint_spec (.inl rfl) _) ?_, fun hneg => ⟨fun hmin => ?_, fun hmin => ?_⟩⟩
  · rintro _ out' rfl
    have hpos : 0 ≤ n.toInt := hor.resolve_left (by simp)
    refine ⟨_, rfl, (readInt_printed _).trans ?_⟩
    rw [← hint] at hpos ⊢
    rw [toNat_of_nonneg hpos]
  · rw [hmin] at hint
    have hleast : (BitVec.intMin 64).toInt = -2 ^ 63 := by decide
    omega
  · refine wp_mono (print_uint_spec (.inl rfl) _) ?_
    rintro _ out' rfl
    have hopp : (-(n.signExtend 64)).toInt = -n.toInt := by rw [BitVec.toInt_neg_of_ne_intMin hmin, hint]
    rw [not_or, not_le] at hneg
    refine ⟨'-' :: printed 10 (-(n.signExtend 64)).toNat, by simp, ?_⟩
    show (readDigits 10 (printed 10 _)).map _ = _
    rw [readDigits_printed (by decide) (by decide), Option.map_some, toNat_of_nonneg (by omega), hopp, neg_neg]

/-- Numbers are printed so that they can be read back. -/
theorem format_round_trip :
    (∀ (val : BitVec 64) (base : Nat), base = 10 ∨ base = 16 → ∀ out : Console, ∃ l,
      print_uint val base out = .ok ((), out ++ l) ∧ l ≠ [] ∧ (l.head? = some '0' → val = 0 ∧ l = ['0']) ∧
      readDigits base l = some val.toNat) ∧
    ∀ (n : BitVec 32) (out : Console), ∃ l,
      print_int (n.signExtend 64) 10 out = .ok ((), out ++ l) ∧ readInt l = some n.toInt := by
  refine ⟨fun val base hbase out => ?_, fun n out => ?_⟩
  · have hspec : wp (print_uint val base) (fun _ out' => out' = out ++ printed base val.toNat) out :=
      print_uint_spec hbase val
    obtain ⟨_, out', hrun, rfl⟩ := hspec
    refine ⟨_, hrun, printed_ne_nil base _, fun hhead => ?_, readDigits_printed (by omega) (by omega) _⟩
    have hzero := head_printed (by omega) (by omega) hhead
    refine ⟨BitVec.eq_of_toNat_eq hzero, ?_⟩
    rw [hzero]
    rfl
  · have hspec : wp (print_int (n.signExtend 64) 10) (fun _ out' => ∃ l, out' = out ++ l ∧ readInt l = some n.toInt) out :=
      print_int_spec n
    obtain ⟨_, out', hrun, l, rfl, hread⟩ := hspec
    exact ⟨l, hrun, hread⟩

/-- The value with the most decimal digits fills the buffer. -/
theorem format_round_trip_full : ∃ l, print_uint (BitVec.allOnes 64) 10 [] = .ok ((), l) ∧ l.length = BUF_SIZE ∧
    readDigits 10 l = some (2 ^ 64 - 1) := by
  obtain ⟨l, hrun, -, -, hread⟩ := format_round_trip.1 (BitVec.allOnes 64) 10 (.inl rfl) []
  have hlen : (print_uint (BitVec.allOnes 64) 10 []).map (fun r => r.2.length) = .ok BUF_SIZE := by decide +kernel
  rw [hrun] at hlen
  refine ⟨l, hrun, ?_, hread⟩
  simpa [Except.map] using hlen

end Kprintf

end bobchouos
