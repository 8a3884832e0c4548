import ExplicitNull.Text.Bytes

/-!
Decimal digits. The digits of a number write this number, and the first of them is no zero unless it
is the only one.
-/
namespace ExplicitNull

def numeral (digits : Bytes) : Nat := digits.foldl (fun n b => 10 * n + (b - byte '0').toNat) 0

theorem digit_bounds {n : Nat} (h : n < 10) :
    Ascii.isDigit (byte '0' + n.toUInt8) = true ∧ (byte '0' + n.toUInt8 - byte '0').toNat = n := by
  revert n
  decide

theorem numeral_decimal (n : Nat) : numeral (decimal n) = n := by
  induction n using Nat.strongRecOn with
  | ind n ih =>
    rw [decimal]
    split
    · next hn => simpa [numeral] using (digit_bounds hn).2
    · next hn =>
      have hlast := (digit_bounds (Nat.mod_lt n (by omega : 0 < 10))).2
      have hfirst : numeral (decimal (n / 10)) = n / 10 := ih (n / 10) (by omega)
      rw [numeral] at hfirst ⊢
      rw [List.foldl_append, hfirst, List.foldl_cons, List.foldl_nil, hlast]
      omega

theorem isDigit_of_mem_decimal {n : Nat} {b : UInt8} (h : b ∈ decimal n) :
    Ascii.isDigit b = true := by
  induction n using Nat.strongRecOn with
  | ind n ih =>
    rw [decimal] at h
    split at h
    · next hn =>
      rw [List.mem_singleton.1 h]
      exact (digit_bounds hn).1
    · next hn =>
      rcases List.mem_append.1 h with h | h
      · exact ih (n / 10) (by omega) h
      · rw [List.mem_singleton.1 h]
        exact (digit_bounds (Nat.mod_lt n (by omega : 0 < 10))).1

theorem decimal_ne_nil (n : Nat) : decimal n ≠ [] := by
  rw [decimal]
  split <;> simp

/-- Only zero begins with a zero. -/
theorem decimal_leading {n : Nat} {ds : Bytes} (h : decimal n = byte '0' :: ds) : ds = [] := by
  induction n using Nat.strongRecOn generalizing ds with
  | ind n ih =>
    rw [decimal] at h
    split at h
    · next hn => exact (List.cons.inj h).2.symm
    · next hn =>
      obtain ⟨d, rest, hfirst⟩ := List.exists_cons_of_ne_nil (decimal_ne_nil (n / 10))
      rw [hfirst, List.cons_append] at h
      obtain rfl : d = byte '0' := (List.cons.inj h).1
      have hrest : rest = [] := ih (n / 10) (by omega) hfirst
      have hnumber := numeral_decimal (n / 10)
      rw [hfirst, hrest] at hnumber
      have hzero : numeral [byte '0'] = 0 := by decide
      omega

end ExplicitNull
