import GrammarTables.Text.Quoted

/-!
# Byte-string literals

The UTF-8 bytes of a text as they stand between the quotes of a byte-string literal. Every byte is
written by itself, so the text of a sequence of bytes is the sequence of their texts.
-/

namespace GrammarTables.Text

/-- How a byte is written inside a byte-string literal. -/
def escapeByte (b : UInt8) : List Char :=
  if b = 0x22 then ['\\', '"']
  else if b = 0x5C then ['\\', '\\']
  else if b = 0x0A then ['\\', 'n']
  else if b = 0x0D then ['\\', 'r']
  else if b = 0x09 then ['\\', 't']
  else if 0x20 ≤ b ∧ b ≤ 0x7E then [Char.ofNat b.toNat]
  else ['\\', 'x'] ++ hexPadded 2 b.toNat

theorem toNat_ofByte (b : UInt8) : (Char.ofNat b.toNat).toNat = b.toNat := by
  have hvalid : b.toNat.isValidChar := .inl (Nat.lt_trans b.toNat_lt (by decide))
  rw [Char.ofNat, dif_pos hvalid]
  rfl

/-- The UTF-8 bytes of a text, escaped. -/
def escapeBytes (s : String) : String :=
  String.ofList (s.toUTF8.toList.flatMap escapeByte)

end GrammarTables.Text
