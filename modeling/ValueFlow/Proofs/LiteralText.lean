import ValueFlow.Operand
import ValueFlow.Proofs.DecimalText

/-!
# The text of a literal tells the literal

Two literals of one kind with the same text are the same literal, unless they
are NaNs (`Literal.isNaN`), which all have one text. For a quoted text this is
because no written form of a character is the beginning of another one, so the
text can be read from the left: `unescape` takes the first character off.
-/

namespace ValueFlow

namespace Text

/-! ## Quoted text -/

/-- The number that a hexadecimal digit stands for. -/
def hexValue (c : Char) : ℕ := if c.isDigit then c.toNat - '0'.toNat else c.toNat - 'a'.toNat + 10

/-- The number that hexadecimal digits stand for. -/
def readHex (cs : List Char) : ℕ := cs.foldl (fun n c => 16 * n + hexValue c) 0

theorem hexValue_digitChar {d : ℕ} (h : d < 16) : hexValue d.digitChar = d := by
  decide +revert

theorem digitChar_ne_brace {d : ℕ} (h : d < 16) : d.digitChar ≠ '\x7d' := by
  decide +revert

theorem readHex_toDigits (n : ℕ) : readHex (Nat.toDigits 16 n) = n := by
  induction n using Nat.strongRecOn with
  | ind n ih =>
    by_cases hn : n < 16
    · rw [Nat.toDigits_of_lt_base hn]
      show 16 * 0 + hexValue n.digitChar = n
      rw [hexValue_digitChar hn, Nat.mul_zero, Nat.zero_add]
    · have hread := ih (n / 16) (by omega)
      unfold readHex at hread ⊢
      rw [Nat.toDigits_of_base_le (by decide) (by omega), List.foldl_append, hread, List.foldl_cons,
        List.foldl_nil, hexValue_digitChar (Nat.mod_lt _ (by decide))]
      omega

theorem brace_notMem_toDigits (n : ℕ) : '\x7d' ∉ Nat.toDigits 16 n := by
  induction n using Nat.strongRecOn with
  | ind n ih =>
    by_cases hn : n < 16
    · rw [Nat.toDigits_of_lt_base hn, List.mem_singleton]
      exact (digitChar_ne_brace hn).symm
    · rw [Nat.toDigits_of_base_le (by decide) (by omega),
        List.mem_append, List.mem_singleton, not_or]
      exact ⟨ih (n / 16) (by omega), (digitChar_ne_brace (Nat.mod_lt _ (by decide))).symm⟩

/-- **The first character of a quoted text, and what follows it.** -/
def unescape : List Char → Option (Char × List Char)
  | '\\' :: '\\' :: rest => some ('\\', rest)
  | '\\' :: '\"' :: rest => some ('\"', rest)
  | '\\' :: 't' :: rest => some ('\t', rest)
  | '\\' :: 'n' :: rest => some ('\n', rest)
  | '\\' :: 'r' :: rest => some ('\r', rest)
  | '\\' :: '0' :: rest => some ('\x00', rest)
  | '\\' :: 'u' :: '\x7b' :: rest =>
    let (code, rest) := Layout.cut '\x7d' rest
    some (Char.ofNat (readHex code), rest)
  | c :: rest => some (c, rest)
  | [] => none

theorem unescape_of_ne {c : Char} (h : c ≠ '\\') (rest : List Char) :
    unescape (c :: rest) = some (c, rest) := by
  unfold unescape
  split <;> simp_all

theorem unescape_escape (c : Char) (rest : List Char) :
    unescape (escape c ++ rest) = some (c, rest) := by
  by_cases hshort : c ∈ ['\\', '\"', '\t', '\n', '\r', '\x00']
  · simp only [List.mem_cons, List.not_mem_nil, or_false] at hshort
    obtain rfl | rfl | rfl | rfl | rfl | rfl := hshort <;> rfl
  · simp only [List.mem_cons, List.not_mem_nil, or_false, not_or] at hshort
    obtain ⟨hbackslash, hquote, htab, hnewline, hreturn, hnull⟩ := hshort
    unfold escape
    rw [if_neg hbackslash, if_neg hquote, if_neg htab, if_neg hnewline,
      if_neg hreturn, if_neg hnull]
    split
    · have hcut := Layout.cut_append (brace_notMem_toDigits c.toNat) rest
      rw [List.append_assoc]
      show (match Layout.cut '\x7d' (Nat.toDigits 16 c.toNat ++ '\x7d' :: rest) with
        | (code, rest) => some (Char.ofNat (readHex code), rest)) = _
      rw [hcut]
      dsimp only
      rw [readHex_toDigits, Char.ofNat_toNat]
    · exact unescape_of_ne hbackslash rest

theorem flatMap_escape_inj {cs cs' : List Char} (h : cs.flatMap escape = cs'.flatMap escape) :
    cs = cs' := by
  induction cs generalizing cs' with
  | nil =>
    cases cs' with
    | nil => rfl
    | cons c cs' =>
      have := congrArg unescape h
      rw [List.flatMap_cons, unescape_escape] at this
      cases this
  | cons c cs ih =>
    have hread := congrArg unescape h
    rw [List.flatMap_cons, unescape_escape] at hread
    cases cs' with
    | nil => cases hread
    | cons c' cs' =>
      rw [List.flatMap_cons, unescape_escape] at hread
      obtain ⟨rfl, hrest⟩ := Prod.mk.inj (Option.some.inj hread)
      rw [ih hrest]

/-- **A text is determined by its quoted form.** -/
theorem quote_inj {s s' : String} (h : quote s = quote s') : s = s' := by
  have hbody := List.append_cancel_right (List.cons.inj (String.ofList_injective h)).2
  exact String.toList_injective (flatMap_escape_inj hbody)

end Text

/-! ## Literals -/

namespace Literal

theorem readPower_toString (n : ℤ) : Layout.readPower (toString n).toList = n := by
  show Layout.readPower n.repr.toList = n
  rw [Int.repr_eq_if]
  split
  · rw [Nat.toList_repr, Layout.readPower_toDigits]
    omega
  · rw [String.toList_append, Nat.toList_repr]
    show -(Nat.ofDigitChars 10 (Nat.toDigits 10 (-n).toNat) 0 : ℤ) = n
    rw [Nat.ofDigitChars_ten_toDigits]
    omega

theorem int_text_inj {n n' : Int64} (h : (int n).text = (int n').text) : n = n' := by
  have hread := congrArg (fun s : String => Layout.readPower s.toList) h
  dsimp only [text] at hread
  rw [readPower_toString, readPower_toString] at hread
  exact Int64.toInt_inj.1 hread

theorem bool_text_inj {b b' : Bool} (h : (bool b).text = (bool b').text) : b = b' := by
  decide +revert

/-- The literal is a double that is not a number. -/
def isNaN : Literal → Bool
  | float x => x.isNaN
  | _ => false

/-- **A literal that is not a NaN is determined by its kind and its text.** -/
theorem eq_of_text {l l' : Literal} (hnan : l.isNaN = false) (hkind : l.rank = l'.rank)
    (h : l.text = l'.text) : l = l' :=
  match l, l', hnan, hkind, h with
  | int _, int _, _, _, h => congrArg int (int_text_inj h)
  | float _, float _, hnan, _, h => congrArg float (Layout.render_display_inj hnan h)
  | bool _, bool _, _, _, h => congrArg bool (bool_text_inj h)
  | str _, str _, _, _, h => congrArg str (Text.quote_inj h)
  | null, null, _, _, _ => rfl

end Literal

/-- The operand is a literal that is not a number. -/
def Operand.isNaN : Operand → Bool
  | .lit l => l.isNaN
  | .var _ => false

end ValueFlow
