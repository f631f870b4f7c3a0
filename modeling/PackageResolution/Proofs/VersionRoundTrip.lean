import PackageResolution.Proofs.VersionGrammar

/-!
# PackageResolution.Proofs.VersionRoundTrip

The text of a version against the text that it was read from. The two are the same but for the
script of the three numbers, which are printed in the digits from `0` to `9`. The identifiers of the
pre-release stay in the digits that they came in.

* `Text.plainDigit`: the digit from `0` to `9` with the same value.
* `Numeral.toDigits_value`: a number is printed digit for digit.
* `Derivation.plain`: the derivation with its three numbers in the digits from `0` to `9`.
* `Version.text_round_trip`: what is printed, and what is read from that.
-/

namespace PackageResolution

open Text

/-! ## Digits -/

namespace Text

/-- The digit from `0` to `9` with the value of a decimal digit. -/
def plainDigit (c : Char) : Char := ((decimalValue? c).getD 0).digitChar

theorem getD_decimalValue?_lt (c : Char) : (decimalValue? c).getD 0 < 10 := by
  cases h : decimalValue? c with
  | none => decide
  | some d => exact decimalValue?_lt h

theorem isDigit_plainDigit (c : Char) : (plainDigit c).isDigit = true := by
  rw [plainDigit, Nat.isDigit_digitChar]
  exact decide_eq_true (getD_decimalValue?_lt c)

theorem plainDigit_of_isDigit {c : Char} (h : c.isDigit = true) : plainDigit c = c := by
  have hlt := getD_decimalValue?_lt c
  rw [decimalValue?_of_isDigit h, Option.getD_some] at hlt
  have hle : 48 ≤ c.toNat := by
    simp only [Char.isDigit, Bool.and_eq_true, decide_eq_true_eq] at h
    exact h.1
  apply Char.toNat_inj.mp
  rw [plainDigit, decimalValue?_of_isDigit h, Option.getD_some,
    Nat.toNat_digitChar_of_lt_ten hlt]
  exact Nat.add_sub_cancel' hle

/-- Behind a number above zero every further digit is printed as it is. -/
theorem toDigits_valueOf_concat {cs : List Char} (h : 0 < valueOf cs) (c : Char) :
    Nat.toDigits 10 (valueOf (cs ++ [c])) = Nat.toDigits 10 (valueOf cs) ++ [plainDigit c] := by
  have hlt := getD_decimalValue?_lt c
  rw [valueOf_concat, ← Nat.toDigits_append_toDigits (by decide) h hlt,
    Nat.toDigits_of_lt_base hlt, plainDigit]

theorem isDigit_of_one_le {c : Char} (h : '1' ≤ c ∧ c ≤ '9') : c.isDigit = true := by
  have h₁ : 49 ≤ c.toNat := h.1
  have h₉ : c.toNat ≤ 57 := h.2
  have hd : 48 ≤ c.toNat ∧ c.toNat ≤ 57 := by omega
  simp only [Char.isDigit, Bool.and_eq_true, decide_eq_true_eq]
  exact hd

theorem toDigits_valueOf_cons {first : Char} (h : '1' ≤ first ∧ first ≤ '9') (rest : List Char) :
    0 < valueOf (first :: rest) ∧
      Nat.toDigits 10 (valueOf (first :: rest)) = first :: rest.map plainDigit := by
  have hdigit := isDigit_of_one_le h
  induction rest using List.reverseRecOn with
  | nil =>
    have hvalue : valueOf [first] = (decimalValue? first).getD 0 := by simp [valueOf]
    have hone : 49 ≤ first.toNat := h.1
    refine ⟨?_, ?_⟩
    · rw [hvalue, decimalValue?_of_isDigit hdigit]
      exact Nat.sub_pos_of_lt hone
    · rw [hvalue, Nat.toDigits_of_lt_base (getD_decimalValue?_lt first)]
      exact congrArg (fun c => [c]) (plainDigit_of_isDigit hdigit)
  | append_singleton rest c ih =>
    obtain ⟨hpos, hdigits⟩ := ih
    refine ⟨?_, ?_⟩
    · rw [← List.cons_append, valueOf_concat]
      omega
    · rw [← List.cons_append, toDigits_valueOf_concat hpos, hdigits]
      simp

end Text

namespace Numeral

/-- The number in the digits from `0` to `9`. The first of them is that already. -/
def plain : Numeral → Numeral
  | .zero => .zero
  | .digits first rest h _ =>
    .digits first (rest.map plainDigit) h fun c hc => by
      obtain ⟨d, _, rfl⟩ := List.mem_map.mp hc
      exact isDecimal_of_isDigit (isDigit_plainDigit d)

theorem chars_plain (n : Numeral) : n.plain.chars = n.chars.map plainDigit := by
  cases n with
  | zero => rfl
  | digits first rest h hrest =>
    rw [chars, List.map_cons, plainDigit_of_isDigit (isDigit_of_one_le h)]
    rfl

/-- A number is printed digit for digit. -/
theorem toDigits_value (n : Numeral) : Nat.toDigits 10 n.value = n.plain.chars := by
  rw [value_eq]
  cases n with
  | zero => rfl
  | digits first rest h hrest => exact (toDigits_valueOf_cons h rest).2

theorem plain_eq_self_iff (n : Numeral) : n.plain = n ↔ ∀ c ∈ n.chars, c.isDigit = true := by
  constructor
  · intro h c hc
    rw [← h, chars_plain] at hc
    obtain ⟨d, _, rfl⟩ := List.mem_map.mp hc
    exact isDigit_plainDigit d
  · intro h
    apply chars_injective
    have hid : n.chars.map plainDigit = n.chars.map id :=
      List.map_congr_left fun c hc => plainDigit_of_isDigit (h c hc)
    rw [chars_plain, hid, List.map_id]

end Numeral

/-! ## Derivations -/

namespace Derivation

/-- The derivation with its three numbers in the digits from `0` to `9`. -/
def plain (d : Derivation) : Derivation :=
  { d with major := d.major.plain, minor := d.minor.plain, patch := d.patch.plain }

theorem spelling_plain (d : Derivation) : d.plain.spelling = d.spelling.normal := by
  simp only [spelling, plain, Spelling.normal, ← Numeral.toDigits_value, Numeral.value_eq]

theorem plain_eq_self_iff (d : Derivation) :
    d.plain = d ↔ ∀ n ∈ [d.major, d.minor, d.patch], ∀ c ∈ n.chars, c.isDigit = true := by
  simp only [← Numeral.plain_eq_self_iff, List.forall_mem_cons, List.not_mem_nil, false_implies,
    implies_true, and_true]
  obtain ⟨major, minor, patch, pre, build⟩ := d
  simp [plain]

end Derivation

namespace Version

/-- A version that has been read is printed, up to the script of its three numbers, as the text it
was read from, and it is read from what is printed. No number is too long for printing. -/
theorem text_round_trip {t : String} {v : Version} (h : parse t = .ok v) :
    ∃ printed, v.text = .ok printed ∧ parse printed = .ok v ∧
      (∀ n ∈ [v.major, v.minor, v.patch], (toString n).length ≤ maxDigits) ∧
      ∃ d : Derivation, d.chars = trim t.toList ∧
        (∀ d' : Derivation, d'.chars = trim t.toList → d' = d) ∧ printed.toList = d.plain.chars ∧
        (printed.toList = trim t.toList ↔
          ∀ n ∈ [d.major, d.minor, d.patch], ∀ c ∈ n.chars, c.isDigit = true) := by
  obtain ⟨s, hs, hv⟩ := parse_eq_ok_iff.mp h
  obtain ⟨d, rfl, hd⟩ := Derivation.exists_of_ofChars? hs
  have hprinted : v.spelled.toList = d.plain.chars := by
    rw [Spelling.toList_spelled hv, ← d.spelling_plain]
    rfl
  have hfits : v.Printable := (text_eq_ok_iff.mp (text_of_parse h)).1
  refine ⟨v.spelled, text_of_parse h, parse_spelled h, hfits, d, hd, ?_, hprinted, ?_⟩
  · intro d' hd'
    exact Derivation.chars_injective (hd'.trans hd.symm)
  · rw [hprinted, ← hd, ← d.plain_eq_self_iff]
    exact ⟨Derivation.chars_injective, congrArg Derivation.chars⟩

/-- Arabic digits in a number, which are printed as `0` and `3`, and in the pre-release, which are
left as they are. -/
theorem text_round_trip_arabic :
    ∃ v, parse "\u20031\u0660.2.1\u0663-1\u0660.x+y\u2003" = .ok v ∧
      v.text = .ok "10.2.13-1\u0660.x+y" ∧ parse "10.2.13-1\u0660.x+y" = .ok v ∧
      ∃ d : Derivation, d.chars = "1\u0660.2.1\u0663-1\u0660.x+y".toList ∧
        "10.2.13-1\u0660.x+y".toList = d.plain.chars ∧
        ¬ ∀ n ∈ [d.major, d.minor, d.patch], ∀ c ∈ n.chars, c.isDigit = true := by
  let v : Version :=
    ⟨10, 2, 13, [⟨"1\u0660", .number 10, by decide +kernel⟩, ⟨"x", .word "x", rfl⟩], ["y"]⟩
  have hv : parse "\u20031\u0660.2.1\u0663-1\u0660.x+y\u2003" = .ok v := by decide +kernel
  have htext : v.text = .ok "10.2.13-1\u0660.x+y" := by decide +kernel
  have htrim : trim "\u20031\u0660.2.1\u0663-1\u0660.x+y\u2003".toList =
      "1\u0660.2.1\u0663-1\u0660.x+y".toList := by decide +kernel
  obtain ⟨printed, hprinted, hparse, _, d, hd, _, hplain, hsame⟩ := text_round_trip hv
  cases htext.symm.trans hprinted
  rw [htrim] at hd hsame
  refine ⟨v, hv, htext, hparse, d, hd, hplain, ?_⟩
  rw [← hsame]
  decide

end Version
end PackageResolution
