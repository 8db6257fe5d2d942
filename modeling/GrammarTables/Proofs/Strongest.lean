import GrammarTables.Production

/-!
# The strongest dynamic precedence

The production of a body has one of the dynamic precedences of the body's blocks, or 0: the first of
those of greatest size. The least word of 32 bits is never taken, although no word has a greater
size.
-/

namespace GrammarTables

/-- A value among others whose size is greatest, the first of those. -/
def FirstLargest (values : List Int) (v : Int) : Prop :=
  ∃ before after, values = before ++ v :: after ∧
    (∀ x ∈ before, x.natAbs < v.natAbs) ∧ ∀ x ∈ after, x.natAbs ≤ v.natAbs

namespace FirstLargest

variable {values : List Int} {b v x : Int}

theorem singleton (v : Int) : FirstLargest [v] v := ⟨[], [], rfl, by simp, by simp⟩

theorem mem (h : FirstLargest values v) : v ∈ values := by
  obtain ⟨before, after, rfl, -, -⟩ := h
  simp

theorem natAbs_le (h : FirstLargest values v) (hx : x ∈ values) : x.natAbs ≤ v.natAbs := by
  obtain ⟨before, after, rfl, hbefore, hafter⟩ := h
  grind

/-- A smaller value may stand in front. -/
theorem cons (h : FirstLargest values v) (hx : x.natAbs < v.natAbs) :
    FirstLargest (x :: values) v := by
  obtain ⟨before, after, rfl, hbefore, hafter⟩ := h
  exact ⟨x :: before, after, rfl, List.forall_mem_cons.2 ⟨hx, hbefore⟩, hafter⟩

/-- A value that is no larger than the first one may stand behind it. -/
theorem insert (h : FirstLargest (b :: values) v) (hx : x.natAbs ≤ b.natAbs) :
    FirstLargest (b :: x :: values) v := by
  obtain ⟨before, after, heq, hbefore, hafter⟩ := h
  cases before with
  | nil =>
    obtain ⟨rfl, rfl⟩ := List.cons.inj heq
    exact ⟨[], x :: values, rfl, by simp, List.forall_mem_cons.2 ⟨hx, hafter⟩⟩
  | cons c before =>
    obtain ⟨rfl, rfl⟩ := List.cons.inj heq
    have hb := hbefore b List.mem_cons_self
    exact ⟨b :: x :: before, after, rfl, by grind, hafter⟩

end FirstLargest

namespace Body

/-- The least word of 32 bits. Its size is no word. -/
def leastWord : Int := -2147483648

/-- A number that a word of 32 bits can be. -/
def IsWord (v : Int) : Prop := leastWord ≤ v ∧ v < 2147483648

instance (v : Int) : Decidable (IsWord v) := by
  unfold IsWord
  infer_instance

/-- A body without choices and repetitions. -/
inductive Straight : Body → Prop
  | blank : Straight .blank
  | symbol (s : Symbol) : Straight (.symbol s)
  | seq {members : List Body} : (∀ b ∈ members, Straight b) → Straight (.seq members)
  | attr {attrs : Attributes} {content : Body} : Straight content → Straight (.attr attrs content)

mutual

/-- What the blocks of a body say, each block before those in it. -/
def blocks : Body → List Attributes
  | .attr attrs content => attrs :: blocks content
  | .seq members => blocksAll members
  | .choice members => blocksAll members
  | .repeat1 content => blocks content
  | .blank => []
  | .symbol _ => []

def blocksAll : List Body → List Attributes
  | [] => []
  | b :: rest => blocks b ++ blocksAll rest

end

theorem dynamicsAll_eq {bs : List Body}
    (h : ∀ b ∈ bs, b.dynamics = b.blocks.map (·.dynamic)) :
    dynamicsAll bs = (blocksAll bs).map (·.dynamic) := by
  induction bs with
  | nil => rfl
  | cons b rest ih =>
    obtain ⟨hb, hrest⟩ := List.forall_mem_cons.1 h
    rw [dynamicsAll, blocksAll, List.map_append, hb, ih hrest]

theorem Straight.dynamics_eq {b : Body} (h : b.Straight) :
    b.dynamics = b.blocks.map (·.dynamic) := by
  induction h with
  | blank | symbol => rfl
  | seq _ ih => rw [dynamics, blocks, dynamicsAll_eq ih]
  | attr _ ih => rw [dynamics, blocks, List.map_cons, ih]

variable {values : List Int} {b v : Int}

theorem natAbs_lt (h : IsWord v) (hv : v ≠ leastWord) : v.natAbs < 2147483648 := by
  obtain ⟨hlo, hhi⟩ := h
  unfold leastWord at *
  omega

/-- The size of a word is a word, but for the least word. -/
theorem magnitude_eq (h : IsWord v) (hv : v ≠ leastWord) : magnitude v = v.natAbs := by
  have hlt := natAbs_lt h hv
  apply Int.bmod_eq_of_le
  · omega
  · omega

theorem magnitude_leastWord : magnitude leastWord = -2147483648 := by decide

/-- A running maximum by sizes passes over the least word. -/
theorem firstLargest_foldl (hvalues : ∀ v ∈ values, IsWord v) (hb : IsWord b)
    (hne : b ≠ leastWord) : FirstLargest (b :: values.filter (· ≠ leastWord))
      (values.foldl (fun best v => if magnitude best < magnitude v then v else best) b) := by
  induction values generalizing b with
  | nil => exact .singleton b
  | cons v values ih =>
    obtain ⟨hv, hrest⟩ := List.forall_mem_cons.1 hvalues
    rw [List.foldl_cons, magnitude_eq hb hne]
    by_cases hleast : v = leastWord
    · have hkeep : ¬ (b.natAbs : Int) < magnitude v := by
        rw [hleast, magnitude_leastWord]
        omega
      rw [if_neg hkeep, List.filter_cons_of_neg (by simpa using hleast)]
      exact ih hrest hb hne
    · rw [magnitude_eq hv hleast, List.filter_cons_of_pos (by simpa using hleast)]
      split
      · rename_i hlt
        have hlargest := ih hrest hv hleast
        have hle := hlargest.natAbs_le List.mem_cons_self
        exact hlargest.cons (by omega)
      · rename_i hge
        exact (ih hrest hb hne).insert (by omega)

theorem firstLargest_strongest (hvalues : ∀ v ∈ values, IsWord v) :
    FirstLargest (0 :: values.filter (· ≠ leastWord)) (strongest values) :=
  firstLargest_foldl hvalues (by decide) (by decide)

/-- The strongest of words is the first of those of greatest size unless it should be the least
word. -/
theorem firstLargest_strongest_iff (hvalues : ∀ v ∈ values, IsWord v) :
    FirstLargest (0 :: values) (strongest values) ↔ leastWord ∉ values := by
  have hlargest := firstLargest_strongest hvalues
  constructor
  · intro h hmem
    have hle := h.natAbs_le (List.mem_cons_of_mem 0 hmem)
    have hkept : IsWord (strongest values) ∧ strongest values ≠ leastWord := by
      rcases List.mem_cons.1 hlargest.mem with heq | hfilter
      · rw [heq]
        decide
      · obtain ⟨hv, hne⟩ := List.mem_filter.1 hfilter
        exact ⟨hvalues _ hv, by simpa using hne⟩
    have hlt := natAbs_lt hkept.1 hkept.2
    rw [leastWord] at hle
    omega
  · intro hnone
    rwa [List.filter_eq_self.2] at hlargest
    intro v hv
    simpa using fun heq : v = leastWord => hnone (heq ▸ hv)

/-- The dynamic precedence of a production is 0 or one that a block of its body says: of those that
are not the least word the first of greatest size. So it is the first of greatest size among all of
them exactly if no block says the least word. -/
theorem dynamic_production {b : Body} (hb : b.Straight)
    (hword : ∀ attrs ∈ b.blocks, IsWord attrs.dynamic) :
    FirstLargest (0 :: (b.blocks.map (·.dynamic)).filter (· ≠ leastWord)) (production b).dynamic ∧
    (FirstLargest (0 :: b.blocks.map (·.dynamic)) (production b).dynamic ↔
      ∀ attrs ∈ b.blocks, attrs.dynamic ≠ leastWord) := by
  have hvalues : ∀ v ∈ b.blocks.map (·.dynamic), IsWord v := List.forall_mem_map.2 hword
  rw [production, hb.dynamics_eq]
  refine ⟨firstLargest_strongest hvalues, (firstLargest_strongest_iff hvalues).trans ?_⟩
  simp [eq_comm]

/-- Of a block and two blocks in it, one of the same size as the other, the first of these two is
the strongest. -/
theorem dynamic_production_nested : ∃ b : Body, b.Straight ∧
    (∀ attrs ∈ b.blocks, IsWord attrs.dynamic) ∧
    b.blocks.map (·.dynamic) = [1, -3, 0, 3] ∧
    FirstLargest (0 :: b.blocks.map (·.dynamic)) (production b).dynamic ∧
    (production b).dynamic = -3 := by
  let part := fun (v : Int) (b : Body) => Body.attr { dynamic := v } b
  let b := part 1 (.seq [part (-3) (.symbol .eof), part 0 .blank, part 3 (.symbol .eof)])
  have hb : b.Straight := by
    refine .attr (.seq fun c hc => ?_)
    simp only [List.mem_cons, List.not_mem_nil, or_false] at hc
    obtain rfl | rfl | rfl := hc
    · exact .attr (.symbol _)
    · exact .attr .blank
    · exact .attr (.symbol _)
  have hword : ∀ attrs ∈ b.blocks, IsWord attrs.dynamic := by decide
  exact ⟨b, hb, hword, rfl, (dynamic_production hb hword).2.2 (by decide), by decide⟩

/-- The least word is passed over. -/
example : (production (.attr { dynamic := leastWord } (.symbol .eof))).dynamic = 0 := by decide

end Body

end GrammarTables
