import GrammarTables.Proofs.Hexadecimal
import GrammarTables.Text.ByteString

/-!
# Byte-string literals are read back

What is written between the quotes of a byte-string literal is printable and does not end the
literal, and reading it gives the bytes that it was written from.
-/

namespace GrammarTables.Text

/-- The byte that a character stands for behind a backslash. -/
def escapedByte? : Char → Option UInt8
  | '"' => some 0x22
  | '\\' => some 0x5C
  | '\x27' => some 0x27
  | 'n' => some 0x0A
  | 'r' => some 0x0D
  | 't' => some 0x09
  | '0' => some 0x00
  | _ => none

/-- The byte that a character stands for by itself. -/
def plainByte? (c : Char) : Option UInt8 :=
  if c.toNat < 128 ∧ c ≠ '"' ∧ c ≠ '\\' ∧ c ≠ '\r' then some c.toUInt8 else none

/-- The bytes of what stands between the quotes of a byte-string literal. Lines that a backslash
continues are not read. -/
def readBytes? : List Char → Option (List UInt8)
  | [] => some []
  | '\\' :: 'x' :: high :: low :: rest => do
    let n ← readHex? [high, low]
    (readBytes? rest).map (n.toUInt8 :: ·)
  | '\\' :: c :: rest => do
    let b ← escapedByte? c
    (readBytes? rest).map (b :: ·)
  | c :: rest => do
    let b ← plainByte? c
    (readBytes? rest).map (b :: ·)

/-- The characters that are not escaped. A backslash escapes the character behind it, and is itself
part of that escape. -/
def unescaped : List Char → List Char
  | '\\' :: _ :: rest => unescaped rest
  | c :: rest => c :: unescaped rest
  | [] => []

/-- A character that prints and is of ASCII. -/
def PrintsAscii (c : Char) : Prop := ' ' ≤ c ∧ c ≤ '~'

instance (c : Char) : Decidable (PrintsAscii c) := inferInstanceAs (Decidable (_ ∧ _))

theorem printsAscii_iff {c : Char} : PrintsAscii c ↔ 32 ≤ c.toNat ∧ c.toNat ≤ 126 := by
  simp only [PrintsAscii, Char.le_def, UInt32.le_iff_toNat_le]
  exact Iff.rfl

/-- How a byte can be written: by a character behind a backslash, by a character that stands for
itself, or by two digits. -/
inductive Escape (b : UInt8) : List Char → Prop
  | short {c : Char} : escapedByte? c = some b → PrintsAscii c → Escape b ['\\', c]
  | plain {c : Char} : plainByte? c = some b → PrintsAscii c → Escape b [c]
  | digits {high low : Char} : readHex? [high, low] = some b.toNat → high.isAlphanum = true →
    low.isAlphanum = true → Escape b ['\\', 'x', high, low]

variable {b : UInt8} {bs : List UInt8} {cs : List Char} {c : Char}

theorem of_isAlphanum (h : c.isAlphanum = true) :
    PrintsAscii c ∧ c ≠ '"' ∧ c ≠ '\\' := by
  refine ⟨?_, ?_, ?_⟩
  · rw [isAlphanum_iff] at h
    rw [printsAscii_iff]
    omega
  · rintro rfl
    cases h
  · rintro rfl
    cases h

theorem ne_of_plainByte? (h : plainByte? c = some b) : c ≠ '"' ∧ c ≠ '\\' := by
  constructor <;>
    · rintro rfl
      cases h

/-- A byte that prints and has no escape of its own stands for itself. -/
theorem plainByte?_ofNat (hlower : 32 ≤ b.toNat) (hupper : b.toNat ≤ 126) (hquote : b ≠ 0x22)
    (hslash : b ≠ 0x5C) : plainByte? (Char.ofNat b.toNat) = some b := by
  have hnat := toNat_ofByte b
  have hne : ∀ d : Char, d.toNat ≠ b.toNat → Char.ofNat b.toNat ≠ d := by
    rintro d hd rfl
    exact hd hnat
  have hquote' : '"'.toNat ≠ b.toNat := fun h => hquote (UInt8.toNat_inj.1 h.symm)
  have hslash' : '\\'.toNat ≠ b.toNat := fun h => hslash (UInt8.toNat_inj.1 h.symm)
  have hreturn : '\r'.toNat ≠ b.toNat := fun h => absurd (h ▸ hlower) (by decide)
  rw [plainByte?, if_pos ⟨by omega, hne _ hquote', hne _ hslash', hne _ hreturn⟩]
  refine congrArg some (UInt8.toNat_inj.1 ?_)
  change (Char.ofNat b.toNat).toNat % 256 = b.toNat
  omega

theorem escape_escapeByte (b : UInt8) : Escape b (escapeByte b) := by
  unfold escapeByte
  split_ifs with hquote hslash hline hreturn htab hplain
  · exact .short (hquote ▸ rfl) (by decide)
  · exact .short (hslash ▸ rfl) (by decide)
  · exact .short (hline ▸ rfl) (by decide)
  · exact .short (hreturn ▸ rfl) (by decide)
  · exact .short (htab ▸ rfl) (by decide)
  · have hlower : 32 ≤ b.toNat := UInt8.le_iff_toNat_le.1 hplain.1
    have hupper : b.toNat ≤ 126 := UInt8.le_iff_toNat_le.1 hplain.2
    exact .plain (plainByte?_ofNat hlower hupper hquote hslash)
      (printsAscii_iff.2 (by rw [toNat_ofByte]; exact ⟨hlower, hupper⟩))
  · have hlt := b.toNat_lt
    have hlength : (hexPadded 2 b.toNat).length = 2 := length_hexPadded (by omega) (by omega)
    obtain ⟨high, low, hdigits⟩ := List.length_eq_two.1 hlength
    have hmem : ∀ c ∈ [high, low], c.isAlphanum = true := by
      rw [← hdigits]
      exact fun c => isAlphanum_of_mem_hexPadded
    rw [hdigits]
    exact .digits (hdigits ▸ readHex?_hexPadded 2 b.toNat) (hmem high (by simp))
      (hmem low (by simp))

theorem Escape.read (h : Escape b cs) (rest : List Char) :
    readBytes? (cs ++ rest) = (readBytes? rest).map (b :: ·) := by
  cases h with
  | @short c hc _ =>
    have hx : c ≠ 'x' := by
      rintro rfl
      cases hc
    simp [readBytes?, hx, hc]
  | plain hc _ => simp [readBytes?, (ne_of_plainByte? hc).2, hc]
  | digits hdigits _ _ => simp [readBytes?, hdigits]

theorem Escape.printsAscii (h : Escape b cs) : ∀ c ∈ cs, PrintsAscii c := by
  cases h with
  | short _ hc => simpa using ⟨by decide, hc⟩
  | plain _ hc => simpa using hc
  | digits _ hhigh hlow =>
    simpa using ⟨by decide, by decide, (of_isAlphanum hhigh).1, (of_isAlphanum hlow).1⟩

theorem unescaped_cons (h : c ≠ '\\') (rest : List Char) :
    unescaped (c :: rest) = c :: unescaped rest := by
  simp [unescaped, h]

/-- A byte leaves neither a quote nor a backslash that is not escaped, whatever follows. -/
theorem Escape.of_mem_unescaped (h : Escape b cs) {rest : List Char}
    (hc : c ∈ unescaped (cs ++ rest)) : (c ≠ '"' ∧ c ≠ '\\') ∨ c ∈ unescaped rest := by
  cases h with
  | short _ _ => exact .inr hc
  | plain hd _ =>
    obtain ⟨hquote, hslash⟩ := ne_of_plainByte? hd
    rw [List.singleton_append, unescaped_cons hslash] at hc
    grind
  | @digits high low _ hhigh hlow =>
    obtain ⟨-, hhigh⟩ := of_isAlphanum hhigh
    obtain ⟨-, hlow⟩ := of_isAlphanum hlow
    change c ∈ unescaped (high :: low :: rest) at hc
    rw [unescaped_cons hhigh.2, unescaped_cons hlow.2] at hc
    grind

/-- Reading takes each byte by itself and goes on with what follows. -/
theorem readBytes?_flatMap_escapeByte (bs : List UInt8) (rest : List Char) :
    readBytes? (bs.flatMap escapeByte ++ rest) = (readBytes? rest).map (bs ++ ·) := by
  induction bs with
  | nil => simp
  | cons b bs ih =>
    rw [List.flatMap_cons, List.append_assoc, (escape_escapeByte b).read, ih, Option.map_map]
    rfl

theorem of_mem_unescaped_flatMap (hc : c ∈ unescaped (bs.flatMap escapeByte)) :
    c ≠ '"' ∧ c ≠ '\\' := by
  induction bs with
  | nil => cases hc
  | cons b bs ih =>
    rw [List.flatMap_cons] at hc
    exact ((escape_escapeByte b).of_mem_unescaped hc).elim id ih

theorem toList_eq_data (bytes : ByteArray) : bytes.toList = bytes.data.toList := by
  have key : ∀ n i (done : List UInt8), bytes.size - i = n →
      ByteArray.toList.loop bytes i done = done.reverse ++ bytes.data.toList.drop i := by
    intro n
    induction n with
    | zero =>
      intro i done hn
      have hle : bytes.data.toList.length ≤ i := by
        change bytes.data.size ≤ i
        change bytes.data.size - i = 0 at hn
        omega
      rw [ByteArray.toList.loop, if_neg (by omega), List.drop_eq_nil_of_le hle, List.append_nil]
    | succ n ih =>
      intro i done hn
      have hi : i < bytes.size := by omega
      have hget : bytes.get! i = bytes.data.toList.get ⟨i, hi⟩ := getElem!_pos bytes.data i hi
      rw [ByteArray.toList.loop, if_pos hi, ih (i + 1) _ (by omega), List.drop_eq_getElem_cons hi,
        hget]
      simp
  exact key _ 0 [] rfl

theorem toUTF8_toList_injective {s t : String} (h : s.toUTF8.toList = t.toUTF8.toList) : s = t := by
  rw [toList_eq_data, toList_eq_data] at h
  exact String.toByteArray_inj.1 (ByteArray.ext (Array.toList_inj.1 h))

/-- An escaped text prints and has no quote or backslash that is not escaped, and reading it, with
whatever follows it, gives the bytes of the text. So no two texts are escaped in the same way. -/
theorem escapeBytes_exact :
    (∀ s : String, (∀ c ∈ (escapeBytes s).toList, PrintsAscii c) ∧
      '"' ∉ unescaped (escapeBytes s).toList ∧ '\\' ∉ unescaped (escapeBytes s).toList ∧
      readBytes? (escapeBytes s).toList = some s.toUTF8.toList ∧
      ∀ rest, readBytes? ((escapeBytes s).toList ++ rest) =
        (readBytes? rest).map (s.toUTF8.toList ++ ·)) ∧
    Function.Injective escapeBytes := by
  have hchars : ∀ s : String, (escapeBytes s).toList = s.toUTF8.toList.flatMap escapeByte :=
    fun s => String.toList_ofList
  have hread : ∀ (s : String) rest, readBytes? ((escapeBytes s).toList ++ rest) =
      (readBytes? rest).map (s.toUTF8.toList ++ ·) := by
    intro s rest
    rw [hchars]
    exact readBytes?_flatMap_escapeByte _ rest
  have hwhole : ∀ s, readBytes? (escapeBytes s).toList = some s.toUTF8.toList := by
    intro s
    simpa [readBytes?] using hread s []
  refine ⟨fun s => ⟨?_, ?_, ?_, hwhole s, hread s⟩, ?_⟩
  · intro c hc
    rw [hchars] at hc
    obtain ⟨b, -, hb⟩ := List.mem_flatMap.1 hc
    exact (escape_escapeByte b).printsAscii c hb
  · rw [hchars]
    exact fun hc => (of_mem_unescaped_flatMap hc).1 rfl
  · rw [hchars]
    exact fun hc => (of_mem_unescaped_flatMap hc).2 rfl
  · intro s t hst
    have heq : some s.toUTF8.toList = some t.toUTF8.toList := by
      rw [← hwhole s, hst, hwhole t]
    exact toUTF8_toList_injective (Option.some.inj heq)

end GrammarTables.Text
