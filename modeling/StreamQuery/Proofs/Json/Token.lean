/-
Strings and integers come back from their texts.

A string is printed character by character, and each character is read back as one
whatever it was printed as; the reader never has half of a surrogate pair in hand.  An
integer is printed as digits without a leading zero.  The reader takes all digits that
it meets, so what comes behind them matters: it must not go on like a number.  Behind a
value comes a comma or the end of a container, or nothing.
-/
import StreamQuery.Json.Printer
import StreamQuery.Json.Reader

namespace StreamQuery.Json

/-! ### Strings -/

/-- The units of sixteen bits that are written as four digits with two zeros in front. -/
theorem hexUnit?_control : ∀ n < 32,
    hexUnit? '0' '0' (Nat.digitChar (n / 16)) (Nat.digitChar (n % 16)) = some n := by
  decide

theorem stringFrom_control {c : Char} (h : c.toNat < 0x20) (acc rest : List Char) :
    stringFrom ⟨some acc, none⟩ ('\\' :: 'u' :: '0' :: '0' :: Nat.digitChar (c.toNat / 16) ::
      Nat.digitChar (c.toNat % 16) :: rest) = stringFrom ⟨some (c :: acc), none⟩ rest := by
  have hpush : Spelled.pushUnit ⟨some acc, none⟩ c.toNat = ⟨some (c :: acc), none⟩ := by
    unfold Spelled.pushUnit
    rw [if_neg (by omega), if_neg (by omega), Char.ofNat_toNat]
    rfl
  rw [stringFrom, hexUnit?_control c.toNat h]
  simp only [hpush]

/-- A character that needs no escape stands for itself. -/
theorem stringFrom_plain {c : Char} (hquote : c ≠ '"') (hslash : c ≠ '\\') (h : ¬ c.toNat < 0x20)
    (acc rest : List Char) :
    stringFrom ⟨some acc, none⟩ (c :: rest) = stringFrom ⟨some (c :: acc), none⟩ rest := by
  rw [stringFrom.eq_5 _ _ _ hquote (fun _ _ _ _ _ hc _ => hslash hc) fun _ _ hc _ => hslash hc,
    if_neg h]
  rfl

/-- A character is read back from the letters that stand for it. -/
theorem stringFrom_escape (c : Char) (acc rest : List Char) :
    stringFrom ⟨some acc, none⟩ (escape c ++ rest) = stringFrom ⟨some (c :: acc), none⟩ rest := by
  unfold escape
  split
  · rfl
  · rfl
  · rfl
  · rfl
  · rfl
  · rfl
  · rfl
  · rename_i hquote hslash _ _ _ _ _
    split
    · rename_i hcontrol
      exact stringFrom_control hcontrol acc rest
    · rename_i hplain
      exact stringFrom_plain hquote hslash hplain acc rest

theorem stringFrom_quoted : ∀ (cs acc rest : List Char),
    stringFrom ⟨some acc, none⟩ (cs.flatMap escape ++ '"' :: rest)
      = some (some (String.ofList (acc.reverse ++ cs)), rest) := by
  intro cs
  induction cs with
  | nil =>
      intro acc rest
      simp [stringFrom, Spelled.finish]
  | cons c cs ih =>
      intro acc rest
      rw [List.flatMap_cons, List.append_assoc, stringFrom_escape, ih]
      simp

/-- **A string is read back from its text.** -/
theorem token_quote (s : String) (rest : List Char) :
    token (quote s ++ rest) = some (.text (some s), rest) := by
  have hquoted := stringFrom_quoted s.toList [] rest
  rw [List.reverse_nil, List.nil_append, String.ofList_toList] at hquoted
  unfold quote
  rw [List.cons_append, List.cons_append, List.append_assoc, List.singleton_append, token]
  exact congrArg _ hquoted

/-! ### Integers -/

/-- What may come behind a value. -/
def Follows (rest : List Char) : Prop :=
  ∀ c cs, rest = c :: cs → c = ',' ∨ c = ']' ∨ c = '}'

theorem follows_nil : Follows [] := by
  intro c cs h
  cases h

theorem follows_cons {c : Char} (h : c = ',' ∨ c = ']' ∨ c = '}') (rest : List Char) :
    Follows (c :: rest) := by
  intro c' cs hc
  cases hc
  exact h

variable {rest : List Char}

theorem Follows.head (h : Follows rest) : ∀ c ∈ rest.head?, c.isDigit = false := by
  intro c hc
  cases rest with
  | nil => simp at hc
  | cons c' cs =>
      cases hc
      rcases h c cs rfl with rfl | rfl | rfl <;> rfl

/-- The digits of a number end where the number ends. -/
theorem digits_append {ds : List Char} (hds : ∀ c ∈ ds, c.isDigit = true) (h : Follows rest) :
    digits (ds ++ rest) = (ds, rest) := by
  have hnone : rest.takeWhile Char.isDigit = [] ∧ rest.dropWhile Char.isDigit = rest := by
    cases rest with
    | nil => exact ⟨rfl, rfl⟩
    | cons c cs =>
        have hc := h.head c rfl
        simp [hc]
  unfold digits
  rw [List.takeWhile_append_of_pos hds, List.dropWhile_append_of_pos hds, hnone.1, hnone.2,
    List.append_nil]

/-- Only zero begins with a zero. -/
theorem head_toDigits : ∀ n : Nat, 0 < n → ∃ d ds, Nat.toDigits 10 n = d :: ds ∧ d ≠ '0' := by
  intro n
  induction n using Nat.strongRecOn with
  | _ n ih =>
      intro hn
      by_cases hsmall : n < 10
      · exact ⟨n.digitChar, [], Nat.toDigits_of_lt_base hsmall, by simp; omega⟩
      · obtain ⟨d, ds, hd, hne⟩ := ih (n / 10) (by omega) (by omega)
        rw [Nat.toDigits_of_base_le (by omega) (by omega), hd]
        exact ⟨d, _, rfl, hne⟩

theorem isDigit_of_mem_decimal {n : Nat} {c : Char} (h : c ∈ Text.decimal n) : c.isDigit = true :=
  Nat.isDigit_of_mem_toDigits (by omega) (by omega) h

theorem wholePart_decimal (n : Nat) (h : Follows rest) :
    wholePart (Text.decimal n ++ rest) = some (Text.decimal n, rest) := by
  have hdigits : ∀ c ∈ Text.decimal n, c.isDigit = true := fun _ => isDigit_of_mem_decimal
  unfold Text.decimal at *
  rcases Nat.eq_zero_or_pos n with rfl | hn
  · rfl
  · obtain ⟨d, ds, hd, hne⟩ := head_toDigits n hn
    have hall := digits_append hdigits h
    rw [hd] at hall ⊢
    rw [List.cons_append] at hall ⊢
    unfold wholePart
    split
    · rename_i heq
      cases heq
      exact absurd rfl hne
    · rw [hall]
      rfl

theorem fraction_of_follows (h : Follows rest) : fraction rest = some ([], rest) := by
  unfold fraction
  split
  · rename_i cs
    rcases h '.' cs rfl with hc | hc | hc <;> cases hc
  · rfl

theorem exponent_of_follows (h : Follows rest) : exponent rest = some (none, rest) := by
  unfold exponent
  split <;> first
    | rfl
    | (rcases h _ _ rfl with hc | hc | hc <;> cases hc)

theorem unsignedNumber_decimal (negative : Bool) (n : Nat) (h : Follows rest) :
    unsignedNumber negative (Text.decimal n ++ rest)
      = some (ofInteger negative (Text.decimal n), rest) := by
  unfold unsignedNumber
  rw [wholePart_decimal n h]
  simp only [Option.bind_eq_bind, Option.bind_some, fraction_of_follows h,
    exponent_of_follows h]
  rfl

theorem ofInteger_decimal {n : Nat} (h : n < UInt64.size) :
    ofInteger false (Text.decimal n) = .int n := by
  unfold ofInteger Text.decimal
  rw [Nat.ofDigitChars_ten_toDigits]
  exact if_pos h

theorem ofInteger_negative {n : Nat} (hpos : 0 < n) (h : Int64.minValue.toInt ≤ -n) :
    ofInteger true (Text.decimal n) = .int (-n) := by
  unfold ofInteger Text.decimal
  have hrange : n ≤ Nat.pow 2 63 := by
    have hmin : Int64.minValue.toInt = -(Nat.pow 2 63 : Nat) := rfl
    omega
  rw [Nat.ofDigitChars_ten_toDigits, if_pos rfl]
  exact if_pos ⟨hpos, hrange⟩

/-- A digit begins a number without a sign. -/
theorem token_digit {d : Char} (hd : d.isDigit = true) (cs : List Char) :
    token (d :: cs) = (unsignedNumber false (d :: cs)).map fun (j, rest) => (.scalar j, rest) := by
  have hnumber : number (d :: cs) = unsignedNumber false (d :: cs) := by
    unfold number
    split
    · rename_i heq
      cases heq
      cases hd
    · rfl
  rw [← hnumber]
  unfold token
  split <;> first
    | rfl
    | (rename_i heq; cases heq; cases hd)

/-- **An integer is read back from its text.** -/
theorem token_signedDecimal {n : Int} (hmin : Int64.minValue.toInt ≤ n) (hmax : n < UInt64.size)
    (h : Follows rest) : token (Text.signedDecimal n ++ rest) = some (.scalar (.int n), rest) := by
  unfold Text.signedDecimal
  by_cases hneg : n < 0
  · have hn : -(n.natAbs : Int) = n := by omega
    have hnumber : number ('-' :: (Text.decimal n.natAbs ++ rest)) = some (.int n, rest) := by
      rw [number, unsignedNumber_decimal true _ h, ofInteger_negative (by omega) (by rwa [hn]), hn]
    rw [if_pos hneg, List.cons_append, token, hnumber]
    all_goals simp
  · have hn : (n.natAbs : Int) = n := by omega
    have hunsigned := unsignedNumber_decimal false n.natAbs h
    rw [ofInteger_decimal (by omega), hn] at hunsigned
    rw [if_neg hneg]
    cases hchars : Text.decimal n.natAbs with
    | nil => exact absurd hchars Nat.toDigits_ne_nil
    | cons d ds =>
        have hd : d.isDigit = true := isDigit_of_mem_decimal (n := n.natAbs)
          (by rw [hchars]; exact List.mem_cons_self)
        rw [hchars] at hunsigned
        rw [List.cons_append] at hunsigned ⊢
        rw [token_digit hd, hunsigned]
        rfl

end StreamQuery.Json
