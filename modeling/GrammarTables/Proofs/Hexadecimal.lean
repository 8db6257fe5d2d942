import GrammarTables.Json.Reader
import GrammarTables.Text.Quoted
import Mathlib.Data.Nat.Digits.Lemmas

/-!
# Hexadecimal digits

The digits that a number is written with are read as the number again, and they are as many as they
are padded to where the number has no more digits than that.
-/

namespace GrammarTables.Text

/-- The number that hexadecimal digits are. -/
def readHex? (cs : List Char) : Option Nat :=
  cs.foldlM (fun n c => (Json.Reader.hexValue c).map (n * 16 + ·)) 0

theorem hexValue_digitChar : ∀ d < 16, Json.Reader.hexValue (Nat.digitChar d) = some d := by
  decide

theorem readHex?_hex (n : Nat) : readHex? (hex n) = some n := by
  induction n using Nat.strongRecOn with
  | _ n ih =>
    by_cases hn : n < 16
    · rw [hex, Nat.toDigits_of_lt_base hn]
      simp [readHex?, hexValue_digitChar n hn]
    · have hdiv := ih (n / 16) (by omega)
      rw [hex, readHex?] at hdiv
      rw [hex, Nat.toDigits_of_base_le (by omega) (by omega), readHex?, List.foldlM_append, hdiv]
      simp [hexValue_digitChar _ (Nat.mod_lt n (by omega : 0 < 16)), Nat.div_add_mod']

theorem readHex?_hexPadded (width n : Nat) : readHex? (hexPadded width n) = some n := by
  have hzeros : ∀ k, readHex? (List.replicate k '0') = some 0 := by
    intro k
    induction k with
    | zero => rfl
    | succ k ih => exact ih
  rw [hexPadded, readHex?, List.foldlM_append, ← readHex?, hzeros]
  exact readHex?_hex n

theorem exists_hexValue {cs : List Char} {n : Nat} (h : readHex? cs = some n) :
    ∀ c ∈ cs, ∃ d, Json.Reader.hexValue c = some d := by
  suffices key : ∀ (cs : List Char) (m : Nat),
      (cs.foldlM (fun n c => (Json.Reader.hexValue c).map (n * 16 + ·)) m).isSome = true →
      ∀ c ∈ cs, ∃ d, Json.Reader.hexValue c = some d from
    key cs 0 (Option.isSome_iff_exists.2 ⟨n, h⟩)
  intro cs
  induction cs with
  | nil => simp
  | cons c cs ih =>
    intro m hm
    rw [List.foldlM_cons] at hm
    cases hc : Json.Reader.hexValue c with
    | none => simp [hc] at hm
    | some d =>
      simp only [hc, Option.map_some, Option.bind_eq_bind, Option.bind_some] at hm
      exact List.forall_mem_cons.2 ⟨⟨d, hc⟩, ih _ hm⟩

variable {width n : Nat} {c : Char}

theorem isAlphanum_iff : c.isAlphanum = true ↔
    65 ≤ c.toNat ∧ c.toNat ≤ 90 ∨ 97 ≤ c.toNat ∧ c.toNat ≤ 122 ∨
      48 ≤ c.toNat ∧ c.toNat ≤ 57 := by
  change (decide (65 ≤ c.val ∧ c.val ≤ 90) || (decide (97 ≤ c.val) && decide (c.val ≤ 122)) ||
    (decide (48 ≤ c.val) && decide (c.val ≤ 57))) = true ↔ _
  simp only [Bool.or_eq_true, Bool.and_eq_true, decide_eq_true_eq, UInt32.le_iff_toNat_le, or_assoc]
  exact Iff.rfl

/-- Digits are letters or digits of ASCII. -/
theorem isAlphanum_of_hexValue {d : Nat} (h : Json.Reader.hexValue c = some d) :
    c.isAlphanum = true := by
  simp only [Json.Reader.hexValue, Char.le_def, UInt32.le_iff_toNat_le] at h
  rw [isAlphanum_iff, Char.toNat]
  split at h
  · grind
  · split at h
    · grind
    · split at h
      · grind
      · cases h

theorem isAlphanum_of_mem_hexPadded (h : c ∈ hexPadded width n) : c.isAlphanum = true := by
  obtain ⟨d, hd⟩ := exists_hexValue (readHex?_hexPadded width n) c h
  exact isAlphanum_of_hexValue hd

/-- Padding does not shorten, so the width is exact for every number that fits. -/
theorem length_hexPadded (hwidth : 0 < width) (h : n < 16 ^ width) :
    (hexPadded width n).length = width := by
  have hle : (hex n).length ≤ width := (Nat.length_toDigits_le_iff (by omega) hwidth).2 h
  rw [hexPadded, List.length_append, List.length_replicate]
  omega

end GrammarTables.Text
