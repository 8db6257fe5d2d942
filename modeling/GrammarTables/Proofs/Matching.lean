import GrammarTables.Proofs.RegexTexts
import Mathlib.Data.Nat.Bitwise

/-!
# Ends of matches

The places that a matcher reaches are the ends of matches: between a place it starts from and one it
reaches stands a text that the expression matches there, and it reaches the end of each such text.
Repetitions are runs of matches. A run that is longer than the text stands still somewhere, so the
number of matches in it can be made any greater number, or as small as the number of places.
-/

namespace GrammarTables

namespace Regex

variable {text : List Char} {r : Regex} {i j k m n places fresh : Nat}

/-- The text between two places is one that an expression matches there. -/
def Spans (text : List Char) (r : Regex) (i j : Nat) : Prop :=
  ∃ front w back, text = front ++ w ++ back ∧ front.length = i ∧ (front ++ w).length = j ∧
    r.Matches front.getLast? back.head? w

theorem Spans.le (h : Spans text r i j) : i ≤ j ∧ j ≤ text.length := by
  obtain ⟨front, w, back, rfl, rfl, rfl, -⟩ := h
  simp only [List.length_append]
  omega

theorem Spans.imp {r' : Regex} (h : Spans text r i j)
    (hm : ∀ {b a w}, r.Matches b a w → r'.Matches b a w) : Spans text r' i j := by
  obtain ⟨front, w, back, htext, hfront, hw, h⟩ := h
  exact ⟨front, w, back, htext, hfront, hw, hm h⟩

/-- A match that takes no character. -/
theorem Spans.still {front back : List Char} (h : r.Matches front.getLast? back.head? []) :
    Spans (front ++ back) r front.length front.length :=
  ⟨front, [], back, by simp, rfl, by simp, h⟩

/-- One match after the other. -/
theorem Spans.append {l r r' : Regex} (hl : Spans text l i j) (hr : Spans text r j k)
    (h : ∀ {b a : Option Char} {u v : List Char}, l.Matches b (v.head?.or a) u →
      r.Matches (u.getLast?.or b) a v → r'.Matches b a (u ++ v)) : Spans text r' i k := by
  obtain ⟨front, u, rest, htext, rfl, rfl, hu⟩ := hl
  obtain ⟨front', v, back, htext', hfront, rfl, hv⟩ := hr
  obtain ⟨rfl, rfl⟩ := List.append_inj (htext.symm.trans (by rw [htext', List.append_assoc]))
    hfront.symm
  refine ⟨front, u ++ v, back, by simp [htext], rfl, by simp, h ?_ ?_⟩
  · rwa [← List.head?_append]
  · rwa [← List.getLast?_append]

/-- Places of a text, none beyond its end. -/
def Within (text : List Char) (places : Nat) : Prop :=
  ∀ i, places.testBit i = true → i ≤ text.length

/-- A step that goes along matches of an expression. -/
def Follows (text : List Char) (r : Regex) (step : Nat → Nat) : Prop :=
  ∀ places j, Within text places → (step places).testBit j = true →
    ∃ i, places.testBit i = true ∧ Spans text r i j

theorem Follows.within {step : Nat → Nat} (h : Follows text r step) (hp : Within text places) :
    Within text (step places) := by
  intro j hj
  obtain ⟨i, -, hspan⟩ := h places j hp hj
  exact hspan.le.2

/-- A number of matches, each where the one before it ends. -/
def Run (text : List Char) (r : Regex) : Nat → Nat → Nat → Prop
  | 0, i, j => i = j ∧ j ≤ text.length
  | n + 1, i, j => ∃ k, Spans text r i k ∧ Run text r n k j

theorem Run.le (h : Run text r n i j) : i ≤ j ∧ j ≤ text.length := by
  induction n generalizing i with
  | zero => exact ⟨h.1.le, h.2⟩
  | succ n ih =>
    obtain ⟨k, hspan, hrun⟩ := h
    exact ⟨hspan.le.1.trans (ih hrun).1, (ih hrun).2⟩

theorem Run.append (hm : Run text r m i j) (hn : Run text r n j k) : Run text r (m + n) i k := by
  induction m generalizing i with
  | zero =>
    obtain ⟨rfl, -⟩ := hm
    simpa using hn
  | succ m ih =>
    obtain ⟨k', hspan, hrun⟩ := hm
    rw [Nat.succ_add]
    exact ⟨k', hspan, ih hrun⟩

/-- A match that takes no character, any number of times. -/
theorem Run.still (h : Spans text r i i) (n : Nat) : Run text r n i i := by
  induction n with
  | zero => exact ⟨rfl, h.le.2⟩
  | succ n ih => exact ⟨i, h, ih⟩

/-- A run of more matches than it takes characters stands still somewhere, and can do so longer. -/
theorem Run.extend (h : Run text r n i j) (hlong : j < i + n) (hm : n ≤ m) : Run text r m i j := by
  induction n generalizing i m with
  | zero =>
    obtain ⟨rfl, -⟩ := h
    omega
  | succ n ih =>
    obtain ⟨k, hspan, hrun⟩ := h
    obtain ⟨m, rfl⟩ : ∃ m', m = m' + 1 := ⟨m - 1, by omega⟩
    rcases Nat.eq_or_lt_of_le hspan.le.1 with rfl | hlt
    · have hmore := (Run.still hspan (m + 1 - n)).append hrun
      rwa [Nat.sub_add_cancel (by omega)] at hmore
    · exact ⟨k, hspan, ih hrun (by omega) (by omega)⟩

/-- A run within the bounds of a repetition is one match of it. -/
theorem Run.spans_repeated {least : Nat} {most : Option Nat} (h : Run text r n i j)
    (hleast : least ≤ n) (hmost : ∀ m ∈ most, n ≤ m) :
    Spans text (.repeated r least most) i j := by
  induction n generalizing i least most with
  | zero =>
    obtain ⟨rfl, hle⟩ := h
    obtain rfl : least = 0 := by omega
    have hstill := Spans.still (r := .repeated r 0 most) (.done : Matches _
      (text.take i).getLast? (text.drop i).head? [])
    rwa [List.take_append_drop, List.length_take_of_le hle] at hstill
  | succ n ih =>
    obtain ⟨k, hspan, hrun⟩ := h
    have hrest : Spans text (.repeated r (least - 1) (most.map (· - 1))) k j := by
      refine ih hrun (by omega) fun m hm => ?_
      obtain ⟨m', hm', rfl⟩ := Option.map_eq_some_iff.1 hm
      have hle := hmost m' hm'
      omega
    refine hspan.append hrest (.more ?_)
    rintro rfl
    exact absurd (hmost 0 rfl) (Nat.not_succ_le_zero n)

theorem Follows.iterate {step : Nat → Nat} (h : Follows text r step) (hp : Within text places)
    (hj : (iterate step n places).testBit j = true) :
    ∃ i, places.testBit i = true ∧ Run text r n i j := by
  induction n generalizing places with
  | zero => exact ⟨j, hj, rfl, hp j hj⟩
  | succ n ih =>
    rw [Regex.iterate] at hj
    split at hj
    · simp at hj
    · obtain ⟨k, hk, hrun⟩ := ih (h.within hp) hj
      obtain ⟨i, hi, hspan⟩ := h places k hp hk
      exact ⟨i, hi, k, hspan, hrun⟩

/-- Steps that are as many as the text has places stand for any greater number of them. -/
theorem Follows.least {step : Nat → Nat} {least : Nat} (h : Follows text r step)
    (hp : Within text places)
    (hj : (Regex.iterate step (min least (text.length + 1)) places).testBit j = true) :
    ∃ i, places.testBit i = true ∧ Run text r least i j := by
  obtain ⟨i, hi, hrun⟩ := h.iterate hp hj
  refine ⟨i, hi, ?_⟩
  rcases Nat.le_total least (text.length + 1) with hle | hle
  · rwa [Nat.min_eq_left hle] at hrun
  · rw [Nat.min_eq_right hle] at hrun
    have hend := hrun.le.2
    exact hrun.extend (by omega) hle

/-- What is reached was there before, or a run of no more matches than asked for leads to it. -/
theorem Follows.upTo {step : Nat → Nat} (h : Follows text r step) (hf : Within text fresh)
    (hj : (upTo step n places fresh).testBit j = true) :
    places.testBit j = true ∨ ∃ m ≤ n, ∃ i, fresh.testBit i = true ∧ Run text r m i j := by
  induction n generalizing places fresh with
  | zero => exact .inl hj
  | succ n ih =>
    have hnew : ∀ k, ((step fresh ||| places) ^^^ places).testBit k = true →
        ∃ i, fresh.testBit i = true ∧ Spans text r i k := by
      intro k hk
      refine h fresh k hf ?_
      simp only [Nat.testBit_xor, Nat.testBit_or] at hk
      revert hk
      cases (step fresh).testBit k <;> cases places.testBit k <;> simp
    have hwithin : Within text ((step fresh ||| places) ^^^ places) := by
      intro k hk
      obtain ⟨i, -, hspan⟩ := hnew k hk
      exact hspan.le.2
    rw [Regex.upTo] at hj
    split at hj
    · exact .inl hj
    · rcases ih hwithin hj with hj | ⟨m, hm, k, hk, hrun⟩
      · rw [Nat.testBit_or, Bool.or_eq_true] at hj
        rcases hj with hj | hj
        · exact .inl hj
        · obtain ⟨i, hi, hspan⟩ := hnew j hj
          exact .inr ⟨1, by omega, i, hi, j, hspan, rfl, hspan.le.2⟩
      · obtain ⟨i, hi, hspan⟩ := hnew k hk
        exact .inr ⟨m + 1, by omega, i, hi, k, hspan, hrun⟩

/-- The bounds of every repetition in the expression are in order. -/
def Bounded (r : Regex) : Prop :=
  ∀ body least most, .repeated body least most ∈ r.parts → ∀ m ∈ most, least ≤ m

theorem Bounded.of_mem {l : Regex} (h : r.Bounded) (hl : l ∈ r.parts) : l.Bounded :=
  fun body least most hpart => h body least most (mem_parts_trans hl hpart)

theorem of_testBit_placesBefore {p : Char → Bool} (h : (placesBefore p text).testBit i = true) :
    ∃ front c back, text = front ++ c :: back ∧ front.length = i ∧ p c = true := by
  induction text generalizing i with
  | nil => simp [placesBefore] at h
  | cons c rest ih =>
    rw [placesBefore, Nat.testBit_or, Bool.or_eq_true] at h
    cases i with
    | zero =>
      refine ⟨[], c, rest, rfl, rfl, ?_⟩
      by_contra hc
      simp [hc] at h
    | succ i =>
      have hrest : (placesBefore p rest).testBit i = true := by
        rcases h with h | h
        · split at h <;> simp [Nat.testBit_succ] at h
        · simpa using h
      obtain ⟨front, d, back, rfl, rfl, hd⟩ := ih hrest
      exact ⟨c :: front, d, back, rfl, rfl, hd⟩

theorem getLast?_cons_or (c : Char) (cs : List Char) (before : Option Char) :
    (c :: cs).getLast?.or before = cs.getLast?.or (some c) := by
  cases h : cs.getLast? <;> simp [List.getLast?_cons, h]

theorem of_testBit_placesOfLook {look : Look} {before : Option Char}
    (h : (placesOfLook look before text).testBit i = true) :
    ∃ front back, text = front ++ back ∧ front.length = i ∧
      look.holds (front.getLast?.or before) back.head? = true := by
  induction text generalizing i before with
  | nil =>
    rw [placesOfLook] at h
    split at h
    · obtain rfl := Nat.testBit_one_eq_true_iff_self_eq_zero.1 h
      exact ⟨[], [], rfl, rfl, ‹_›⟩
    · simp at h
  | cons c rest ih =>
    rw [placesOfLook, Nat.testBit_or, Bool.or_eq_true] at h
    cases i with
    | zero =>
      refine ⟨[], c :: rest, rfl, rfl, ?_⟩
      by_contra hc
      simp_all
    | succ i =>
      have hrest : (placesOfLook look (some c) rest).testBit i = true := by
        rcases h with h | h
        · split at h <;> simp [Nat.testBit_succ] at h
        · simpa using h
      obtain ⟨front, back, rfl, rfl, hlook⟩ := ih hrest
      exact ⟨c :: front, back, rfl, rfl, by rwa [getLast?_cons_or]⟩

/-- A repetition takes its least number of matches, and then up to as many as its bounds allow. -/
theorem exists_ends_repeated (text : List Char) (r : Regex) (least : Nat) (most : Option Nat) :
    ∃ more, (∀ m ∈ most, more ≤ m - least) ∧
      (∀ n, (∀ m ∈ most, n ≤ m - least) → min n (text.length + 1) ≤ more) ∧
      ∀ places, ends text (.repeated r least most) places =
        upTo (ends text r) more (iterate (ends text r) (min least (text.length + 1)) places)
          (iterate (ends text r) (min least (text.length + 1)) places) := by
  cases most with
  | none => exact ⟨text.length + 1, by simp, fun n _ => Nat.min_le_right n _, fun _ => rfl⟩
  | some most =>
    refine ⟨min (most - least) (text.length + 1), ?_, fun n hn => ?_, fun _ => rfl⟩
    · rintro _ ⟨⟩
      exact Nat.min_le_left _ _
    · have hn := hn most rfl
      omega

/-- What the matcher reaches are ends of matches. -/
theorem follows_ends (text : List Char) (hr : r.Bounded) : Follows text r (ends text r) := by
  induction r with
  | empty =>
    intro places j hp hj
    have hstill := Spans.still (r := .empty) (.empty : Matches _
      (text.take j).getLast? (text.drop j).head? [])
    rw [List.take_append_drop, List.length_take_of_le (hp j hj)] at hstill
    exact ⟨j, hj, hstill⟩
  | chars s =>
    intro places j hp hj
    rw [ends, Nat.testBit_shiftLeft] at hj
    obtain ⟨hone, hj⟩ := Bool.and_eq_true_iff.1 hj
    rw [Nat.testBit_and, Bool.and_eq_true] at hj
    obtain ⟨front, c, back, rfl, hfront, hc⟩ := of_testBit_placesBefore hj.2
    refine ⟨j - 1, hj.1, front, [c], back, by simp, hfront, ?_, .chars hc⟩
    simp at hone ⊢
    omega
  | look l =>
    intro places j hp hj
    rw [ends, Nat.testBit_and, Bool.and_eq_true] at hj
    obtain ⟨front, back, rfl, rfl, hlook⟩ := of_testBit_placesOfLook hj.2
    exact ⟨_, hj.1, .still (.look (by simpa using hlook))⟩
  | group r ih =>
    intro places j hp hj
    obtain ⟨i, hi, hspan⟩ := ih (hr.of_mem (by simp [parts])) places j hp hj
    exact ⟨i, hi, hspan.imp .group⟩
  | concat l r ihl ihr =>
    intro places k hp hk
    have hl := ihl (hr.of_mem (by simp [parts]))
    have hr := ihr (hr.of_mem (by simp [parts]))
    obtain ⟨j, hj, hspan'⟩ := hr _ k (hl.within hp) hk
    obtain ⟨i, hi, hspan⟩ := hl places j hp hj
    exact ⟨i, hi, hspan.append hspan' .concat⟩
  | alternate l r ihl ihr =>
    intro places j hp hj
    rw [ends, Nat.testBit_or, Bool.or_eq_true] at hj
    rcases hj with hj | hj
    · obtain ⟨i, hi, hspan⟩ := ihl (hr.of_mem (by simp [parts])) places j hp hj
      exact ⟨i, hi, hspan.imp .left⟩
    · obtain ⟨i, hi, hspan⟩ := ihr (hr.of_mem (by simp [parts])) places j hp hj
      exact ⟨i, hi, hspan.imp .right⟩
  | repeated r least most ih =>
    intro places j hp hj
    have hbounds : ∀ m ∈ most, least ≤ m := hr r least most (self_mem_parts _)
    have hfollows := ih (hr.of_mem (by simp [parts]))
    obtain ⟨more, hmore, -, hends⟩ := exists_ends_repeated text r least most
    rw [hends] at hj
    have hwithin : Within text (iterate (ends text r) (min least (text.length + 1)) places) := by
      intro k hk
      obtain ⟨i, -, hrun⟩ := hfollows.least hp hk
      exact hrun.le.2
    rcases hfollows.upTo hwithin hj with hj | ⟨m, hm, k, hk, hrest⟩
    · obtain ⟨i, hi, hrun⟩ := hfollows.least hp hj
      exact ⟨i, hi, hrun.spans_repeated (Nat.le_refl least) hbounds⟩
    · obtain ⟨i, hi, hrun⟩ := hfollows.least hp hk
      refine ⟨i, hi, (hrun.append hrest).spans_repeated (Nat.le_add_right least m) fun n hn => ?_⟩
      have hmore := hmore n hn
      have hbounds := hbounds n hn
      omega

/-- A step that misses no match of an expression. -/
def Finds (text : List Char) (r : Regex) (step : Nat → Nat) : Prop :=
  ∀ places i j, places.testBit i = true → Spans text r i j → (step places).testBit j = true

theorem Run.split (h : Run text r (m + n) i j) : ∃ k, Run text r m i k ∧ Run text r n k j := by
  induction m generalizing i with
  | zero => exact ⟨i, ⟨rfl, Nat.le_trans h.le.1 h.le.2⟩, by simpa using h⟩
  | succ m ih =>
    rw [Nat.succ_add] at h
    obtain ⟨k, hspan, hrun⟩ := h
    obtain ⟨k', hm, hn⟩ := ih hrun
    exact ⟨k', ⟨k, hspan, hm⟩, hn⟩

/-- A run goes on without the matches that take no character, as far as there are too many. -/
theorem Run.shorten (h : Run text r n i j) (hm : m ≤ n) (hlong : j ≤ i + m) :
    Run text r m i j := by
  induction n generalizing i m with
  | zero =>
    obtain rfl := Nat.le_zero.1 hm
    exact h
  | succ n ih =>
    rcases Nat.eq_or_lt_of_le hm with rfl | hlt
    · exact h
    obtain ⟨k, hspan, hrun⟩ := h
    rcases Nat.eq_or_lt_of_le hspan.le.1 with rfl | hik
    · exact ih hrun (Nat.le_of_lt_succ hlt) hlong
    · have hkj := hrun.le.1
      obtain ⟨m, rfl⟩ : ∃ m', m = m' + 1 := ⟨m - 1, by omega⟩
      exact ⟨k, hspan, ih hrun (by omega) (by omega)⟩

/-- No more matches are asked for than the text has places. -/
theorem Run.atMost (h : Run text r n i j) : Run text r (min n (text.length + 1)) i j := by
  rcases Nat.le_total n (text.length + 1) with hle | hle
  · rwa [Nat.min_eq_left hle]
  · rw [Nat.min_eq_right hle]
    have hend := h.le.2
    exact h.shorten hle (by omega)

theorem Matches.exists_run {least : Nat} {most : Option Nat} {b a : Option Char}
    {front w back : List Char} (h : Matches (.repeated r least most) b a w)
    (hb : b = front.getLast?) (ha : a = back.head?) :
    ∃ n, least ≤ n ∧ (∀ m ∈ most, n ≤ m) ∧
      Run (front ++ w ++ back) r n front.length (front ++ w).length := by
  generalize hr : Regex.repeated r least most = r' at h
  induction h generalizing least most front with
  | done =>
    cases hr
    exact ⟨0, Nat.le_refl 0, fun _ _ => Nat.zero_le _, by simp, by simp⟩
  | @more b a _ least most u v hmost hu _ _ ih =>
    cases hr
    subst hb ha
    obtain ⟨n, hleast, hle, hrun⟩ := ih
      (show u.getLast?.or front.getLast? = (front ++ u).getLast? by rw [List.getLast?_append])
      rfl rfl
    refine ⟨n + 1, by omega, fun m hm => ?_, (front ++ u).length, ?_, ?_⟩
    · have hne : m ≠ 0 := fun h => hmost (h ▸ hm)
      have hle := hle (m - 1) (by simp [Option.mem_def.1 hm])
      omega
    · exact ⟨front, u, v ++ back, by simp, rfl, rfl, by rwa [List.head?_append]⟩
    · simpa using hrun
  | _ => cases hr

theorem Spans.exists_run {least : Nat} {most : Option Nat}
    (h : Spans text (.repeated r least most) i j) :
    ∃ n, least ≤ n ∧ (∀ m ∈ most, n ≤ m) ∧ Run text r n i j := by
  obtain ⟨front, w, back, rfl, rfl, rfl, h⟩ := h
  exact h.exists_run rfl rfl

theorem Finds.iterate {step : Nat → Nat} (h : Finds text r step) (hi : places.testBit i = true)
    (hrun : Run text r n i j) : (iterate step n places).testBit j = true := by
  induction n generalizing places i with
  | zero =>
    obtain ⟨rfl, -⟩ := hrun
    exact hi
  | succ n ih =>
    obtain ⟨k, hspan, hrun⟩ := hrun
    have hne : places ≠ 0 := by
      rintro rfl
      simp at hi
    rw [Regex.iterate, if_neg hne]
    exact ih (h places i k hi hspan) hrun

/-- A run does not leave places that no match leads out of. -/
theorem Run.mem (h : Run text r n i j) (hclosed : ∀ i, places.testBit i = true → ∀ j,
    Spans text r i j → places.testBit j = true) (hi : places.testBit i = true) :
    places.testBit j = true := by
  induction n generalizing i with
  | zero =>
    obtain ⟨rfl, -⟩ := h
    exact hi
  | succ n ih =>
    obtain ⟨k, hspan, hrun⟩ := h
    exact ih hrun (hclosed i hi k hspan)

/-- Going on from the places reached last misses nothing, as long as all matches from the other
places have been followed. -/
theorem Finds.upTo {step : Nat → Nat} (h : Finds text r step)
    (hclosed : ∀ i, places.testBit i = true → fresh.testBit i = false → ∀ j, Spans text r i j →
      places.testBit j = true)
    (hi : places.testBit i = true) (hrun : Run text r m i j) (hm : m ≤ n) :
    (upTo step n places fresh).testBit j = true := by
  induction n generalizing places fresh i m with
  | zero =>
    obtain rfl := Nat.le_zero.1 hm
    obtain ⟨rfl, -⟩ := hrun
    exact hi
  | succ n ih =>
    have hbit : ∀ k, (places ||| ((step fresh ||| places) ^^^ places)).testBit k =
        ((step fresh).testBit k || places.testBit k) := by
      intro k
      simp only [Nat.testBit_or, Nat.testBit_xor]
      cases (step fresh).testBit k <;> cases places.testBit k <;> rfl
    have hnext : ∀ i, places.testBit i = true → ∀ j, Spans text r i j →
        (places ||| ((step fresh ||| places) ^^^ places)).testBit j = true := by
      intro i hi j hspan
      rw [hbit, Bool.or_eq_true]
      cases hfresh : fresh.testBit i with
      | true => exact .inl (h fresh i j hfresh hspan)
      | false => exact .inr (hclosed i hi hfresh j hspan)
    rw [Regex.upTo]
    split
    · rename_i hnone
      rw [hnone, Nat.or_zero] at hnext
      exact hrun.mem hnext hi
    · have hmore : ∀ i, (places ||| ((step fresh ||| places) ^^^ places)).testBit i = true →
          ((step fresh ||| places) ^^^ places).testBit i = false → ∀ j, Spans text r i j →
          (places ||| ((step fresh ||| places) ^^^ places)).testBit j = true := by
        intro i hi hold
        rw [Nat.testBit_or, hold, Bool.or_false] at hi
        exact hnext i hi
      cases m with
      | zero =>
        refine ih hmore ?_ hrun (Nat.zero_le n)
        rw [Nat.testBit_or, hi, Bool.true_or]
      | succ m =>
        obtain ⟨k, hspan, hrun⟩ := hrun
        exact ih hmore (hnext i hi k hspan) hrun (Nat.le_of_succ_le_succ hm)

theorem testBit_placesBefore {p : Char → Bool} {c : Char} (hc : p c = true)
    (front back : List Char) :
    (placesBefore p (front ++ c :: back)).testBit front.length = true := by
  induction front with
  | nil => simp [placesBefore, hc]
  | cons d front ih => simp [placesBefore, ih]

theorem testBit_placesOfLook {look : Look} {before : Option Char} {front back : List Char}
    (h : look.holds (front.getLast?.or before) back.head? = true) :
    (placesOfLook look before (front ++ back)).testBit front.length = true := by
  induction front generalizing before with
  | nil =>
    cases back with
    | nil =>
      replace h : look.holds before none = true := h
      simp [placesOfLook, h]
    | cons c back =>
      replace h : look.holds before (some c) = true := h
      simp [placesOfLook, h]
  | cons d front ih =>
    have hrest : look.holds (front.getLast?.or (some d)) back.head? = true := by
      rwa [← getLast?_cons_or]
    simp [placesOfLook, ih hrest]

/-- The matcher misses no match. -/
theorem finds_ends (text : List Char) (r : Regex) : Finds text r (ends text r) := by
  induction r with
  | empty =>
    rintro places i j hi ⟨front, w, back, -, rfl, rfl, h⟩
    cases h
    simpa [ends] using hi
  | chars s =>
    rintro places i j hi ⟨front, w, back, rfl, rfl, rfl, h⟩
    obtain ⟨c, rfl, hc⟩ := matches_chars.1 h
    have hbefore := testBit_placesBefore hc front back
    simp [ends, hi, hbefore]
  | look l =>
    rintro places i j hi ⟨front, w, back, rfl, rfl, rfl, h⟩
    cases h with
    | look hl =>
      have hplace : (placesOfLook l none (front ++ back)).testBit front.length = true :=
        testBit_placesOfLook (by rwa [Option.or_none])
      rw [List.append_nil, ends, Nat.testBit_and, hi, hplace, Bool.and_self]
  | group r ih =>
    intro places i j hi hspan
    exact ih places i j hi (hspan.imp matches_group.1)
  | concat l r ihl ihr =>
    rintro places i k hi ⟨front, w, back, rfl, rfl, rfl, h⟩
    obtain ⟨u, v, rfl, hu, hv⟩ := matches_concat.1 h
    refine ihr _ (front ++ u).length _ (ihl places _ _ hi ?_) ?_
    · exact ⟨front, u, v ++ back, by simp, rfl, rfl, by rwa [List.head?_append]⟩
    · exact ⟨front ++ u, v, back, by simp, rfl, by simp, by rwa [List.getLast?_append]⟩
  | alternate l r ihl ihr =>
    rintro places i j hi ⟨front, w, back, htext, hfront, hw, h⟩
    rw [ends, Nat.testBit_or, Bool.or_eq_true]
    refine (matches_alternate.1 h).imp (fun h => ?_) (fun h => ?_)
    · exact ihl places i j hi ⟨front, w, back, htext, hfront, hw, h⟩
    · exact ihr places i j hi ⟨front, w, back, htext, hfront, hw, h⟩
  | repeated r least most ih =>
    intro places i j hi hspan
    obtain ⟨n, hleast, hmost, hrun⟩ := hspan.exists_run
    obtain ⟨more, -, hmore, hends⟩ := exists_ends_repeated text r least most
    obtain ⟨n, rfl⟩ : ∃ m, n = least + m := ⟨n - least, by omega⟩
    obtain ⟨k, hstart, hrest⟩ := hrun.split
    have hmore := hmore n fun m hm => by
      have hle := hmost m hm
      omega
    rw [hends]
    refine ih.upTo (fun i hi hnot => ?_) (ih.iterate hi hstart.atMost) hrest.atMost hmore
    rw [hi] at hnot
    cases hnot

/-- A text has a match of an expression where one is found. -/
theorem isMatch_iff (hr : r.Bounded) {text : String} :
    r.isMatch text = true ↔ ∃ i j, Spans text.toList r i j := by
  have hstart : ∀ i, (2 ^ (text.toList.length + 1) - 1).testBit i = true ↔
      i ≤ text.toList.length := by
    intro i
    rw [Nat.testBit_two_pow_sub_one, decide_eq_true_iff, Nat.lt_succ_iff]
  constructor
  · intro h
    have hne : ends text.toList r (2 ^ (text.toList.length + 1) - 1) ≠ 0 := by
      simpa [isMatch] using h
    obtain ⟨j, hj⟩ := Nat.exists_testBit_of_ne_zero hne
    obtain ⟨i, -, hspan⟩ := follows_ends text.toList hr _ j (fun i => (hstart i).1) hj
    exact ⟨i, j, hspan⟩
  · rintro ⟨i, j, hspan⟩
    have hj := finds_ends text.toList r _ i j ((hstart i).2 (hspan.le.1.trans hspan.le.2)) hspan
    have hne : ends text.toList r (2 ^ (text.toList.length + 1) - 1) ≠ 0 := by
      intro hzero
      simp [hzero] at hj
    simpa [isMatch] using hne

end Regex

end GrammarTables
