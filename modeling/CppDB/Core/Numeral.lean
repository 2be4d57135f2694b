import CppDB.Core.Value

/-! The decimal texts of an `INT` cell: what `std::from_chars` accepts of them in full, and
that it reads back what `std::to_string` prints. -/
namespace CppDB

/-- An optional minus sign and at least one digit, with the number they denote. Zeros may
lead. -/
inductive Denotes : Str → Int → Prop
  | plain {digits : Str} (nonempty : digits ≠ []) (all : ∀ c ∈ digits, c.isDigit = true) :
      Denotes digits (digitsValue digits)
  | minus {digits : Str} (nonempty : digits ≠ []) (all : ∀ c ∈ digits, c.isDigit = true) :
      Denotes ('-' :: digits) (-digitsValue digits)

/-- The numbers an `int64_t` holds. -/
def FitsInt64 (number : Int) : Prop := -2 ^ 63 ≤ number ∧ number ≤ 2 ^ 63 - 1

theorem toInt_ofInt {number : Int} (fits : FitsInt64 number) :
    (Int64.ofInt number).toInt = number :=
  Int64.toInt_ofInt_of_le fits.1 (by have := fits.2; omega)

theorem fitsInt64_toInt (n : Int64) : FitsInt64 n.toInt :=
  ⟨n.le_toInt, by have := n.toInt_lt; omega⟩

/-! ### Reading -/

/-- A text without a sign is read up to its first character that is no digit. -/
theorem fromChars_plain {text : Str} (unsigned : text.head? ≠ some '-') :
    fromChars text =
      if text.takeWhile Char.isDigit ≠ [] ∧
          -2 ^ 63 ≤ (digitsValue (text.takeWhile Char.isDigit) : Int) ∧
          (digitsValue (text.takeWhile Char.isDigit) : Int) < 2 ^ 63 then
        some (Int64.ofInt (digitsValue (text.takeWhile Char.isDigit)),
          text.dropWhile Char.isDigit)
      else none := by
  simp only [fromChars, unsigned, if_false]

theorem fromChars_minus (body : Str) :
    fromChars ('-' :: body) =
      if body.takeWhile Char.isDigit ≠ [] ∧
          -2 ^ 63 ≤ -(digitsValue (body.takeWhile Char.isDigit) : Int) ∧
          -(digitsValue (body.takeWhile Char.isDigit) : Int) < 2 ^ 63 then
        some (Int64.ofInt (-digitsValue (body.takeWhile Char.isDigit)),
          body.dropWhile Char.isDigit)
      else none := by
  simp only [fromChars, List.head?_cons, if_true, List.tail_cons]

theorem Denotes.fromChars {text : Str} {number : Int} (denotes : Denotes text number)
    (fits : FitsInt64 number) : fromChars text = some (Int64.ofInt number, []) := by
  have inRange : -2 ^ 63 ≤ number ∧ number < 2 ^ 63 := ⟨fits.1, by have := fits.2; omega⟩
  cases denotes with
  | plain nonempty all =>
    have unsigned : text.head? ≠ some '-' := by
      intro sign
      exact absurd (all '-' (List.mem_of_head? sign)) (by decide)
    rw [fromChars_plain unsigned, List.takeWhile_eq_self_iff.mpr all,
      List.dropWhile_eq_nil_iff.mpr all, if_pos ⟨nonempty, inRange⟩]
  | minus nonempty all =>
    rw [fromChars_minus, List.takeWhile_eq_self_iff.mpr all, List.dropWhile_eq_nil_iff.mpr all,
      if_pos ⟨nonempty, inRange⟩]

theorem denotes_of_fromChars {text : Str} {n : Int64} (reads : fromChars text = some (n, [])) :
    ∃ number, Denotes text number ∧ FitsInt64 number := by
  by_cases sign : text.head? = some '-'
  · obtain ⟨body, rfl⟩ := List.head?_eq_some_iff.mp sign
    rw [fromChars_minus] at reads
    split_ifs at reads with good
    obtain ⟨-, rest⟩ := Prod.mk.inj (Option.some.inj reads)
    have all := List.dropWhile_eq_nil_iff.mp rest
    rw [List.takeWhile_eq_self_iff.mpr all] at good
    exact ⟨_, .minus good.1 all, good.2.1, by omega⟩
  · rw [fromChars_plain sign] at reads
    split_ifs at reads with good
    obtain ⟨-, rest⟩ := Prod.mk.inj (Option.some.inj reads)
    have all := List.dropWhile_eq_nil_iff.mp rest
    rw [List.takeWhile_eq_self_iff.mpr all] at good
    exact ⟨_, .plain good.1 all, good.2.1, by omega⟩

/-- A literal is a valid `INT` if it denotes a number that fits. -/
theorem isValidValueFor_int {literal : Str} :
    isValidValueFor .int literal = true ↔ ∃ number, Denotes literal number ∧ FitsInt64 number := by
  constructor
  · intro valid
    simp only [isValidValueFor] at valid
    split at valid
    · rename_i n rest reads
      rw [List.isEmpty_iff.mp valid] at reads
      exact denotes_of_fromChars reads
    · cases valid
  · rintro ⟨number, denotes, fits⟩
    simp only [isValidValueFor, denotes.fromChars fits, List.isEmpty_nil]

theorem Denotes.parseInt {literal : Str} {number : Int} (denotes : Denotes literal number)
    (fits : FitsInt64 number) : (parseInt literal).toInt = number := by
  rw [CppDB.parseInt, denotes.fromChars fits]
  exact toInt_ofInt fits

theorem Denotes.unique {text : Str} {number number' : Int} (denotes : Denotes text number)
    (denotes' : Denotes text number') : number = number' := by
  cases denotes with
  | plain nonempty all =>
    cases denotes' with
    | plain => rfl
    | minus => exact absurd (all '-' List.mem_cons_self) (by decide)
  | minus nonempty all =>
    cases denotes' with
    | plain _ digits => exact absurd (digits '-' List.mem_cons_self) (by decide)
    | minus => rfl

/-! ### Printing -/

theorem digitsValue_append (digits : Str) (c : Char) :
    digitsValue (digits ++ [c]) = digitsValue digits * 10 + (c.toNat - '0'.toNat) := by
  rw [digitsValue, List.foldl_append, List.foldl_cons, List.foldl_nil, ← digitsValue]

theorem digitsValue_ofDigits {ds : List Nat} (small : ∀ d ∈ ds, d < 10) :
    digitsValue (ds.map Nat.digitChar).reverse = Nat.ofDigits 10 ds := by
  induction ds with
  | nil => rfl
  | cons d ds ih =>
    obtain ⟨here, others⟩ := List.forall_mem_cons.mp small
    have value : (Nat.digitChar d).toNat - '0'.toNat = d := by
      rw [Nat.toNat_digitChar_of_lt_ten here]
      exact Nat.add_sub_cancel_left 48 d
    rw [List.map_cons, List.reverse_cons, digitsValue_append, ih others, value, Nat.ofDigits_cons]
    omega

theorem digitsValue_decimal (n : Nat) : digitsValue (decimal n) = n := by
  rw [decimal]
  split_ifs with zero
  · rw [zero]
    rfl
  · rw [digitsValue_ofDigits fun d there => Nat.digits_lt_base (by omega) there,
      Nat.ofDigits_digits]

theorem decimal_ne_nil (n : Nat) : decimal n ≠ [] := by
  rw [decimal]
  split_ifs with zero
  · exact List.cons_ne_nil _ _
  · simpa [Nat.digits_eq_nil_iff_eq_zero] using zero

theorem isDigit_of_mem_decimal {n : Nat} {c : Char} (there : c ∈ decimal n) :
    c.isDigit = true := by
  rw [decimal] at there
  split_ifs at there
  · rw [List.mem_singleton.mp there]
    rfl
  · obtain ⟨d, digit, rfl⟩ := List.mem_map.mp (List.mem_reverse.mp there)
    have small : d < 10 := Nat.digits_lt_base (by omega) digit
    interval_cases d <;> rfl

theorem denotes_numeral (n : Int64) : Denotes (numeral n) n.toInt := by
  have all : ∀ c ∈ decimal n.toInt.natAbs, c.isDigit = true := fun c there =>
    isDigit_of_mem_decimal there
  rw [numeral]
  split_ifs with negative
  · have denotes := Denotes.minus (decimal_ne_nil n.toInt.natAbs) all
    rwa [digitsValue_decimal, Int.ofNat_natAbs_of_nonpos negative.le, Int.neg_neg] at denotes
  · have denotes := Denotes.plain (decimal_ne_nil n.toInt.natAbs) all
    rwa [digitsValue_decimal, Int.natAbs_of_nonneg (by omega)] at denotes

/-- What is printed for a number is read back in full, the least one included. -/
theorem fromChars_numeral (n : Int64) : fromChars (numeral n) = some (n, []) := by
  rw [(denotes_numeral n).fromChars (fitsInt64_toInt n), Int64.ofInt_toInt]

theorem isValidValueFor_toString (v : Value) : isValidValueFor v.type v.toString = true := by
  cases v with
  | int n => exact isValidValueFor_int.mpr ⟨_, denotes_numeral n, fitsInt64_toInt n⟩
  | text content => rfl

theorem cellFor_toString (v : Value) : cellFor v.type v.toString = v := by
  cases v with
  | int n => simp only [Value.type, Value.toString, cellFor, parseInt, fromChars_numeral]
  | text content => rfl

end CppDB
