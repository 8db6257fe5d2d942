import GrammarTables.ParseTable.Merge
import GrammarTables.Proofs.Renumbering
import Mathlib.Data.List.Nodup
import Mathlib.Data.List.Perm.Basic

/-!
# Merging states

Splitting the groups of states ends with groups whose members are compatible for these groups. The
merged state of a group then has the entries of each member, up to the groups of the targets, and
every entry of it comes from a member.
-/

namespace GrammarTables.Merge

/-- Groups that share out the numbers below a bound, none of them empty and each ascending. -/
structure Partition (n : Nat) (groups : List (List Nat)) : Prop where
  nodup : groups.flatten.Nodup
  mem : ∀ {i : Nat}, i ∈ groups.flatten ↔ i < n
  ne_nil : ∀ G ∈ groups, G ≠ []
  ascending : ∀ G ∈ groups, G.Pairwise (· < ·)

section Split

variable {compatible : Nat → Nat → Bool}

/-- Later members are compatible with earlier ones. -/
def Coherent (compatible : Nat → Nat → Bool) (G : List Nat) : Prop :=
  G.Pairwise fun j i => compatible i j = true

theorem Coherent.of_lt {G : List Nat} (h : Coherent compatible G) (hasc : G.Pairwise (· < ·))
    {i j : Nat} (hi : i ∈ G) (hj : j ∈ G) (hij : i < j) : compatible j i = true := by
  induction G with
  | nil => cases hi
  | cons k G ih =>
    rw [Coherent, List.pairwise_cons] at h
    rw [List.pairwise_cons] at hasc
    rcases List.mem_cons.1 hi with rfl | hi' <;> rcases List.mem_cons.1 hj with rfl | hj'
    · omega
    · exact h.1 j hj'
    · have := hasc.1 i hi'
      omega
    · exact ih h.2 hasc.2 hi' hj'

theorem flatten_place_perm (i : Nat) (groups : List (List Nat)) :
    (place compatible i groups).flatten.Perm (groups.flatten ++ [i]) := by
  induction groups with
  | nil => exact .refl _
  | cons G rest ih =>
    rw [place]
    split
    · simp only [List.flatten_cons, List.append_assoc]
      exact List.perm_append_comm.append_left G
    · simpa using ih.append_left G

theorem place_keeps {P Q : List Nat → Prop} {i : Nat} (single : Q [i]) (keep : ∀ G, P G → Q G)
    (append : ∀ G, P G → (G.all fun j => compatible i j) = true → Q (G ++ [i]))
    {groups : List (List Nat)} (h : ∀ G ∈ groups, P G) : ∀ G ∈ place compatible i groups, Q G := by
  induction groups with
  | nil => simpa [place] using single
  | cons G rest ih =>
    rw [place]
    have hG : P G := h G (by simp)
    have hrest : ∀ G ∈ rest, P G := fun G hG => h G (by simp [hG])
    split
    · rename_i hall
      intro K hK
      rcases List.mem_cons.1 hK with rfl | hK
      · exact append G hG hall
      · exact keep K (hrest K hK)
    · intro K hK
      rcases List.mem_cons.1 hK with rfl | hK
      · exact keep _ hG
      · exact ih hrest K hK

theorem flatten_split_perm (compatible : Nat → Nat → Bool) (group : List Nat) :
    (split compatible group).flatten.Perm group := by
  have key : ∀ (xs : List Nat) (groups : List (List Nat)),
      (xs.foldl (fun groups i => place compatible i groups) groups).flatten.Perm
        (groups.flatten ++ xs) := by
    intro xs
    induction xs with
    | nil => intro groups; simp
    | cons i xs ih =>
      intro groups
      have h := (ih (place compatible i groups)).trans
        ((flatten_place_perm i groups).append_right xs)
      simpa using h
  have h := key group []
  rwa [List.flatten_nil, List.nil_append] at h

/-- The subgroups of an ascending group are ascending, and their members are compatible. -/
theorem split_coherent {group : List Nat} (h : group.Pairwise (· < ·)) :
    ∀ G ∈ split compatible group,
      G ≠ [] ∧ G.Pairwise (· < ·) ∧ Coherent compatible G ∧ ∀ i ∈ G, i ∈ group := by
  have key : ∀ (xs ys : List Nat) (groups : List (List Nat)), (ys ++ xs).Pairwise (· < ·) →
      (∀ G ∈ groups, G ≠ [] ∧ G.Pairwise (· < ·) ∧ Coherent compatible G ∧ ∀ i ∈ G, i ∈ ys) →
      ∀ G ∈ xs.foldl (fun groups i => place compatible i groups) groups,
        G ≠ [] ∧ G.Pairwise (· < ·) ∧ Coherent compatible G ∧ ∀ i ∈ G, i ∈ ys ++ xs := by
    intro xs
    induction xs with
    | nil => intro ys groups _ hg; simpa using hg
    | cons i xs ih =>
      intro ys groups hlt hg
      have hsplit : ys ++ i :: xs = (ys ++ [i]) ++ xs := by simp
      rw [hsplit] at hlt ⊢
      refine ih (ys ++ [i]) _ hlt (place_keeps ?_ (fun G hG => ?_) (fun G hG hall => ?_) hg)
      · simp [Coherent]
      · obtain ⟨hne, hasc, hcoh, hmem⟩ := hG
        exact ⟨hne, hasc, hcoh, fun j hj => List.mem_append_left _ (hmem j hj)⟩
      · obtain ⟨-, hasc, hcoh, hmem⟩ := hG
        have hi : ∀ j ∈ G, j < i := fun j hj =>
          (List.pairwise_append.1 (List.pairwise_append.1 hlt).1).2.2 j (hmem j hj) i (by simp)
        refine ⟨by simp, ?_, ?_, fun j hj => ?_⟩
        · exact List.pairwise_append.2 ⟨hasc, by simp, by simpa using hi⟩
        · exact List.pairwise_append.2 ⟨hcoh, by simp, by simpa using hall⟩
        · rcases List.mem_append.1 hj with hj | hj
          · exact List.mem_append_left _ (hmem j hj)
          · exact List.mem_append_right _ hj
  exact key group [] [] (by simpa using h) (by simp)

/-- A group that is not split stays as it is. -/
theorem split_eq_of_length {group : List Nat} (h : group.Pairwise (· < ·))
    (hlen : (split compatible group).length = 1) : split compatible group = [group] := by
  obtain ⟨G, hG⟩ := List.length_eq_one_iff.1 hlen
  obtain ⟨-, hasc, -, -⟩ := split_coherent h G (hG ▸ List.mem_singleton_self G)
  have hperm := flatten_split_perm compatible group
  rw [hG] at hperm ⊢
  have hperm' : G.Perm group := by simpa using hperm
  rw [hperm'.eq_of_pairwise (fun a b _ _ hab hba => absurd hab (Nat.lt_asymm hba)) hasc h]

theorem one_le_length_split (compatible : Nat → Nat → Bool) {group : List Nat} (h : group ≠ []) :
    1 ≤ (split compatible group).length := by
  by_contra hlt
  have hnil : split compatible group = [] := List.eq_nil_of_length_eq_zero (by omega)
  have hperm := flatten_split_perm compatible group
  rw [hnil] at hperm
  exact h hperm.nil_eq.symm

end Split

namespace Partition

variable {n : Nat} {groups : List (List Nat)}

theorem length_le (h : Partition n groups) : groups.length ≤ n := by
  have hperm : groups.flatten.Perm (List.range n) :=
    (List.perm_ext_iff_of_nodup h.nodup List.nodup_range).2 fun i => by
      rw [h.mem, List.mem_range]
  have hlen : groups.flatten.length = n := by simpa using hperm.length_eq
  have key : ∀ groups : List (List Nat), (∀ G ∈ groups, G ≠ []) →
      groups.length ≤ groups.flatten.length := by
    intro groups
    induction groups with
    | nil => simp
    | cons G rest ih =>
      intro hne
      have hG := List.length_pos_iff.2 (hne G (by simp))
      have := ih fun K hK => hne K (by simp [hK])
      simp only [List.flatten_cons, List.length_append, List.length_cons]
      omega
  exact hlen ▸ key groups h.ne_nil

theorem split (h : Partition n groups) (compatible : Nat → Nat → Bool) :
    Partition n (groups.flatMap (Merge.split compatible)) := by
  have hperm : (groups.flatMap (Merge.split compatible)).flatten.Perm groups.flatten := by
    have key : ∀ groups : List (List Nat),
        (groups.flatMap (Merge.split compatible)).flatten.Perm groups.flatten := by
      intro groups
      induction groups with
      | nil => exact .refl _
      | cons G rest ih =>
        rw [List.flatMap_cons, List.flatten_append, List.flatten_cons]
        exact (flatten_split_perm compatible G).append ih
    exact key groups
  refine ⟨hperm.nodup_iff.2 h.nodup, hperm.mem_iff.trans h.mem, fun K hK => ?_, fun K hK => ?_⟩
  · obtain ⟨G, hG, hK⟩ := List.mem_flatMap.1 hK
    exact (split_coherent (h.ascending G hG) K hK).1
  · obtain ⟨G, hG, hK⟩ := List.mem_flatMap.1 hK
    exact (split_coherent (h.ascending G hG) K hK).2.1

theorem perm {groups' : List (List Nat)} (h : Partition n groups) (hp : groups'.Perm groups) :
    Partition n groups' :=
  ⟨hp.flatten.nodup_iff.2 h.nodup, hp.flatten.mem_iff.trans h.mem,
    fun G hG => h.ne_nil G (hp.mem_iff.1 hG), fun G hG => h.ascending G (hp.mem_iff.1 hG)⟩

/-- A round does not lose groups, and one that adds none splits none. -/
theorem length_flatMap_split (compatible : Nat → Nat → Bool) {groups : List (List Nat)}
    (hne : ∀ G ∈ groups, G ≠ []) :
    groups.length ≤ (groups.flatMap (Merge.split compatible)).length ∧
      ((groups.flatMap (Merge.split compatible)).length = groups.length →
        ∀ G ∈ groups, (Merge.split compatible G).length = 1) := by
  induction groups with
  | nil => simp
  | cons G rest ih =>
    have hG := one_le_length_split compatible (hne G (by simp))
    obtain ⟨hle, hone⟩ := ih fun K hK => hne K (by simp [hK])
    simp only [List.flatMap_cons, List.length_append, List.length_cons]
    refine ⟨by omega, fun heq K hK => ?_⟩
    rcases List.mem_cons.1 hK with rfl | hK
    · omega
    · exact hone (by omega) K hK

theorem flatMap_split_eq (h : Partition n groups) {compatible : Nat → Nat → Bool}
    (hlen : (groups.flatMap (Merge.split compatible)).length = groups.length) :
    ∀ G ∈ groups, Merge.split compatible G = [G] := fun G hG =>
  split_eq_of_length (h.ascending G hG) ((length_flatMap_split compatible h.ne_nil).2 hlen G hG)

/-- The table of groups has each number's group. -/
theorem getElem?_groupOf (h : Partition n groups) {i k : Nat} {G : List Nat}
    (hk : groups[k]? = some G) (hi : i ∈ G) : (groupOf n groups)[i]? = some k := by
  let ps := groups.zipIdx.flatMap fun (x : List Nat × Nat) => x.1.map (·, x.2)
  have hps : groupOf n groups =
      ps.foldl (fun table p => table.setIfInBounds p.1 p.2) (Array.replicate n 0) := by
    simp only [ps, List.foldl_flatMap, List.foldl_map]
    rfl
  have hfst : ps.map (·.1) = groups.flatten := by
    simp only [ps, List.map_flatMap, List.map_map]
    change groups.zipIdx.flatMap (fun x => x.1.map id) = _
    simp only [List.map_id, List.flatMap_def, List.zipIdx_map_fst]
  have hmem : (i, k) ∈ ps :=
    List.mem_flatMap.2 ⟨(G, k), List.mk_mem_zipIdx_iff_getElem?.2 hk, List.mem_map_of_mem hi⟩
  have hlt : i < n := h.mem.1 (List.mem_flatten.2 ⟨G, List.mem_of_getElem? hk, hi⟩)
  rw [hps]
  exact getElem?_assign (hfst ▸ h.nodup) hmem (by simpa using hlt)

/-- The group of a number. -/
def groupAt (n : Nat) (groups : List (List Nat)) (i : Nat) : Nat := (groupOf n groups)[i]?.getD 0

theorem groupAt_eq (h : Partition n groups) {i k : Nat} {G : List Nat} (hk : groups[k]? = some G)
    (hi : i ∈ G) : groupAt n groups i = k := by
  rw [groupAt, h.getElem?_groupOf hk hi, Option.getD_some]

theorem exists_group (h : Partition n groups) {i : Nat} (hi : i < n) :
    ∃ G, groups[groupAt n groups i]? = some G ∧ i ∈ G := by
  obtain ⟨G, hG, hiG⟩ := List.mem_flatten.1 (h.mem.2 hi)
  obtain ⟨k, hk⟩ := List.mem_iff_getElem?.1 hG
  rw [h.groupAt_eq hk hiG]
  exact ⟨G, hk, hiG⟩

/-- Numbers that are in the same group stay so when the groups change places. -/
theorem groupAt_congr {groups' : List (List Nat)} (h : Partition n groups)
    (hp : groups'.Perm groups) {i j : Nat} (hi : i < n) (hj : j < n)
    (hij : groupAt n groups i = groupAt n groups j) :
    groupAt n groups' i = groupAt n groups' j := by
  obtain ⟨G, hG, hiG⟩ := h.exists_group hi
  obtain ⟨K, hK, hjK⟩ := h.exists_group hj
  rw [← hij, hG] at hK
  obtain rfl := Option.some.inj hK
  obtain ⟨k, hk⟩ := List.mem_iff_getElem?.1 (hp.mem_iff.2 (List.mem_of_getElem? hG))
  rw [(h.perm hp).groupAt_eq hk hiG, (h.perm hp).groupAt_eq hk hjK]

end Partition

/-- Splitting ends with groups whose members are compatible for these groups. -/
theorem refine_coherent {n : Nat} (compatible : Array Nat → Nat → Nat → Bool)
    {P : List Nat → Prop} (sub : ∀ G K, P G → (∀ i ∈ K, i ∈ G) → P K) (fuel : Nat)
    {groups : List (List Nat)} (h : Partition n groups) (hg : ∀ G ∈ groups, P G)
    (hfuel : n < fuel + groups.length) :
    Partition n (refine n compatible fuel groups) ∧
      (∀ G ∈ refine n compatible fuel groups, P G) ∧
      ∀ G ∈ refine n compatible fuel groups,
        Coherent (compatible (groupOf n (refine n compatible fuel groups))) G := by
  induction fuel generalizing groups with
  | zero =>
    have := h.length_le
    omega
  | succ fuel ih =>
    have hnext := h.split (compatible (groupOf n groups))
    have hgnext : ∀ K ∈ groups.flatMap (split (compatible (groupOf n groups))), P K := by
      intro K hK
      obtain ⟨G, hG, hK⟩ := List.mem_flatMap.1 hK
      exact sub G K (hg G hG) (split_coherent (h.ascending G hG) K hK).2.2.2
    simp only [refine]
    split
    · rename_i hlen
      have heq := h.flatMap_split_eq hlen
      have hsame : groups.flatMap (split (compatible (groupOf n groups))) = groups := by
        rw [List.flatMap_congr heq, List.flatMap_singleton']
      rw [hsame]
      refine ⟨h, hg, fun G hG => ?_⟩
      have hmem : G ∈ split (compatible (groupOf n groups)) G := by
        rw [heq G hG]
        exact List.mem_singleton_self G
      exact (split_coherent (h.ascending G hG) G hmem).2.2.1
    · rename_i hne
      apply ih hnext hgnext
      have hle := (Partition.length_flatMap_split (compatible (groupOf n groups)) h.ne_nil).1
      omega

section ByCore

variable {states : Array State}

/-- The numbers of the states with a core, ascending. -/
def withCore (states : Array State) (c : Nat) : List Nat :=
  (states.toList.zipIdx.filter fun x => x.1.core = c).map (·.2)

theorem mem_withCore {c i : Nat} :
    i ∈ withCore states c ↔ ∃ s, states[i]? = some s ∧ s.core = c := by
  simp [withCore, List.mem_zipIdx_iff_getElem?]

theorem ascending_withCore (c : Nat) : (withCore states c).Pairwise (· < ·) := by
  have hsub : (withCore states c).Sublist (states.toList.zipIdx.map (·.2)) :=
    List.filter_sublist.map _
  apply List.Pairwise.sublist hsub
  have hsnd : states.toList.zipIdx.map (·.2) = List.range states.size := by
    simp [List.zipIdx_map_snd, List.range_eq_range']
  rw [hsnd]
  exact List.pairwise_lt_range

theorem byCore_eq (states : Array State) : byCore states =
    ((List.range states.size).filter fun c => !(withCore states c).isEmpty).map
      (withCore states) := by
  let step := fun (groups : Array (List Nat)) (x : State × Nat) => groups.modify x.1.core (x.2 :: ·)
  have key : ∀ (xs : List (State × Nat)) (groups : Array (List Nat)),
      (xs.foldl step groups).size = groups.size ∧ ∀ c, (xs.foldl step groups)[c]? =
        groups[c]?.map fun l => ((xs.filter fun x => x.1.core = c).map (·.2)).reverse ++ l := by
    intro xs
    induction xs with
    | nil => intro groups; simp
    | cons x xs ih =>
      intro groups
      obtain ⟨hs, hget⟩ := ih (step groups x)
      refine ⟨hs.trans (by simp [step]), fun c => ?_⟩
      rw [List.foldl_cons, hget]
      simp only [step, Array.getElem?_modify]
      by_cases hc : x.1.core = c
      · cases groups[c]? <;> simp [hc]
      · simp [hc]
  obtain ⟨hsize, hget⟩ := key states.toList.zipIdx (Array.replicate states.size [])
  have hlist : (states.toList.zipIdx.foldl step (Array.replicate states.size [])).toList =
      (List.range states.size).map fun c => (withCore states c).reverse := by
    refine List.ext_getElem? fun c => ?_
    rw [Array.getElem?_toList, hget, List.getElem?_map]
    by_cases hc : c < states.size
    · simp [hc, withCore]
    · simp [hc]
  change ((states.toList.zipIdx.foldl step (Array.replicate states.size [])).toList.filter
    (!·.isEmpty)).map List.reverse = _
  rw [hlist, List.filter_map, List.map_map]
  congr 1
  · funext c
    simp
  · refine List.filter_congr fun c _ => ?_
    simp

theorem partition_byCore (h : ∀ {q : Nat} {s : State}, states[q]? = some s → s.core < states.size) :
    Partition states.size (byCore states) := by
  rw [byCore_eq]
  refine ⟨?_, fun {i} => ?_, fun G hG => ?_, fun G hG => ?_⟩
  · rw [List.nodup_flatten]
    refine ⟨fun G hG => ?_, ?_⟩
    · obtain ⟨c, -, rfl⟩ := List.mem_map.1 hG
      exact (ascending_withCore c).imp Nat.ne_of_lt
    · refine List.pairwise_map.2 ((List.nodup_range.filter _).imp fun hne i hi hj => hne ?_)
      obtain ⟨s, hs, rfl⟩ := mem_withCore.1 hi
      obtain ⟨s', hs', rfl⟩ := mem_withCore.1 hj
      rw [hs] at hs'
      rw [Option.some.inj hs']
  · simp only [List.mem_flatten, List.mem_map, List.mem_filter, List.mem_range]
    constructor
    · rintro ⟨_, ⟨c, -, rfl⟩, hi⟩
      obtain ⟨s, hs, -⟩ := mem_withCore.1 hi
      exact (Array.getElem?_eq_some_iff.1 hs).1
    · intro hi
      have hs := Array.getElem?_eq_getElem hi
      have hmem : i ∈ withCore states states[i].core := mem_withCore.2 ⟨_, hs, rfl⟩
      exact ⟨_, ⟨_, ⟨h hs, by simpa using List.ne_nil_of_mem hmem⟩, rfl⟩, hmem⟩
  · obtain ⟨c, hc, rfl⟩ := List.mem_map.1 hG
    simpa using (List.mem_filter.1 hc).2
  · obtain ⟨c, -, rfl⟩ := List.mem_map.1 hG
    exact ascending_withCore c

end ByCore

section Union

/-- A state with as many entries as there are terminals and variables. -/
def Sized (a v : Nat) (s : State) : Prop := s.actions.size = a ∧ s.gotos.size = v

/-- Two states as one. -/
def join (s t : State) : State :=
  { s with
    actions := s.actions.zipWith (fun as bs => if as.isEmpty then bs else as) t.actions
    gotos := s.gotos.zipWith (fun a b => a <|> b) t.gotos }

theorem union_cons (s : State) (rest : List State) : union (s :: rest) = rest.foldl join s := rfl

variable {a v : Nat} {s t : State}

theorem Sized.join (hs : Sized a v s) (ht : Sized a v t) : Sized a v (Merge.join s t) := by
  simp [Sized, Merge.join, hs.1, hs.2, ht.1, ht.2]

theorem on_join (hs : Sized a v s) (ht : Sized a v t) (x : Symbol) :
    (join s t).on x = if s.on x = [] then t.on x else s.on x := by
  simp only [State.on, join, Array.getElem?_zipWith]
  by_cases hx : TokenSet.position x < a
  · have hs' : TokenSet.position x < s.actions.size := hs.1.symm ▸ hx
    have ht' : TokenSet.position x < t.actions.size := ht.1.symm ▸ hx
    simp [Array.getElem?_eq_getElem hs', Array.getElem?_eq_getElem ht']
  · have hs' : s.actions.size ≤ TokenSet.position x := by rw [hs.1]; omega
    have ht' : t.actions.size ≤ TokenSet.position x := by rw [ht.1]; omega
    simp [Array.getElem?_eq_none hs', Array.getElem?_eq_none ht']

theorem goto?_join (hs : Sized a v s) (ht : Sized a v t) (x : Nat) :
    (join s t).goto? x = (s.goto? x <|> t.goto? x) := by
  simp only [State.goto?, join, Array.getElem?_zipWith]
  by_cases hx : x < v
  · have hs' : x < s.gotos.size := hs.2.symm ▸ hx
    have ht' : x < t.gotos.size := ht.2.symm ▸ hx
    simp [Array.getElem?_eq_getElem hs', Array.getElem?_eq_getElem ht']
  · have hs' : s.gotos.size ≤ x := by rw [hs.2]; omega
    have ht' : t.gotos.size ≤ x := by rw [ht.2]; omega
    simp [Array.getElem?_eq_none hs', Array.getElem?_eq_none ht']

theorem sized_union {ss : List State} (h : ∀ s ∈ ss, Sized a v s) (hne : ss ≠ []) :
    Sized a v (union ss) := by
  cases ss with
  | nil => exact absurd rfl hne
  | cons s rest =>
    obtain ⟨hs, hrest⟩ := List.forall_mem_cons.1 h
    rw [union_cons]
    exact List.foldlRecOn rest _ hs fun m hm t ht => hm.join (hrest t ht)

/-- Where two states as one have what one of them has, and something if one of them has something,
many states as one do so too. -/
theorem read_union {β : Type} (read : State → β) {nothing : β}
    (hjoin : ∀ {s t : State}, Sized a v s → Sized a v t →
      (read (join s t) = read s ∨ read (join s t) = read t) ∧
        (read s ≠ nothing ∨ read t ≠ nothing → read (join s t) ≠ nothing))
    {ss : List State} (h : ∀ s ∈ ss, Sized a v s) (hne : ss ≠ []) :
    (∃ s ∈ ss, read s = read (union ss)) ∧
      ((∃ s ∈ ss, read s ≠ nothing) → read (union ss) ≠ nothing) := by
  cases ss with
  | nil => exact absurd rfl hne
  | cons s rest =>
    clear hne
    rw [union_cons]
    induction rest generalizing s with
    | nil => simp
    | cons t rest ih =>
      obtain ⟨hs, ht, hrest⟩ : Sized a v s ∧ Sized a v t ∧ ∀ s' ∈ rest, Sized a v s' := by
        simpa using h
      obtain ⟨hone, hsome⟩ := hjoin hs ht
      obtain ⟨⟨m, hm, heq⟩, hto⟩ :=
        ih (Merge.join s t) (List.forall_mem_cons.2 ⟨hs.join ht, hrest⟩)
      rw [List.foldl_cons]
      refine ⟨?_, fun ⟨m', hm', hne⟩ => hto ?_⟩
      · rcases List.mem_cons.1 hm with rfl | hm
        · rcases hone with h | h
          · exact ⟨s, by simp, h.symm.trans heq⟩
          · exact ⟨t, by simp, h.symm.trans heq⟩
        · exact ⟨m, by simp [hm], heq⟩
      · obtain rfl | rfl | hm' : m' = s ∨ m' = t ∨ m' ∈ rest := by simpa using hm'
        · exact ⟨_, List.mem_cons_self, hsome (.inl hne)⟩
        · exact ⟨_, List.mem_cons_self, hsome (.inr hne)⟩
        · exact ⟨m', by simp [hm'], hne⟩

/-- An entry for a terminal is that of a member, and it is there if a member has one. -/
theorem on_union {ss : List State} (h : ∀ s ∈ ss, Sized a v s) (hne : ss ≠ []) (x : Symbol) :
    (∃ s ∈ ss, s.on x = (union ss).on x) ∧
      ((∃ s ∈ ss, s.on x ≠ []) → (union ss).on x ≠ []) := by
  refine read_union (State.on · x) (fun hs ht => ?_) h hne
  rw [on_join hs ht]
  split <;> simp_all

/-- A target of a variable is that of a member, and it is there if a member has one. -/
theorem goto?_union {ss : List State} (h : ∀ s ∈ ss, Sized a v s) (hne : ss ≠ []) (x : Nat) :
    (∃ s ∈ ss, s.goto? x = (union ss).goto? x) ∧
      ((∃ s ∈ ss, s.goto? x ≠ none) → (union ss).goto? x ≠ none) := by
  refine read_union (State.goto? · x) (fun {s t} hs ht => ?_) h hne
  rw [goto?_join hs ht]
  cases s.goto? x <;> simp

end Union

/-- Two states have the same entries up to a renaming of targets, where both have entries. -/
structure Agrees (f : Nat → Nat) (s t : State) : Prop where
  on : ∀ x, s.on x ≠ [] → t.on x ≠ [] →
    (s.on x).map (·.mapTarget f) = (t.on x).map (·.mapTarget f)
  goto : ∀ v m n, s.goto? v = some m → t.goto? v = some n → f m = f n

theorem Agrees.symm {f : Nat → Nat} {s t : State} (h : Agrees f s t) : Agrees f t s :=
  ⟨fun x hs ht => (h.on x ht hs).symm, fun v m n hm hn => (h.goto v n m hn hm).symm⟩

theorem Agrees.refl (f : Nat → Nat) (s : State) : Agrees f s s := by
  refine ⟨fun _ _ _ => rfl, fun v m n hm hn => ?_⟩
  rw [hm] at hn
  rw [Option.some.inj hn]

theorem mapTarget_congr {f f' : Nat → Nat} {a b : Action} (h : a.mapTarget f = b.mapTarget f)
    (hf : ∀ m r n r', a = .shift m r → b = .shift n r' → f m = f n → f' m = f' n) :
    a.mapTarget f' = b.mapTarget f' := by
  cases a with
  | shift m r =>
    cases b with
    | shift n r' =>
      simp only [Action.mapTarget, Action.shift.injEq] at h ⊢
      exact ⟨hf m r n r' rfl rfl h.1, h.2⟩
    | _ => cases h
  | _ => cases b <;> first | exact h | cases h

/-- Targets that are renamed alike by one function may be renamed by another one that does so. -/
theorem Agrees.congr {f f' : Nat → Nat} {s t : State} (h : Agrees f s t)
    (hf : ∀ m ∈ s.successors, ∀ n ∈ t.successors, f m = f n → f' m = f' n) : Agrees f' s t := by
  have key : ∀ as bs : List Action, as.map (·.mapTarget f) = bs.map (·.mapTarget f) →
      (∀ m r, .shift m r ∈ as → ∀ n r', .shift n r' ∈ bs → f m = f n → f' m = f' n) →
      as.map (·.mapTarget f') = bs.map (·.mapTarget f') := by
    intro as
    induction as with
    | nil =>
      intro bs hab _
      cases bs with
      | nil => rfl
      | cons b bs => simp at hab
    | cons a as ih =>
      intro bs hab hf
      cases bs with
      | nil => simp at hab
      | cons b bs =>
        simp only [List.map_cons, List.cons.injEq] at hab ⊢
        refine ⟨mapTarget_congr hab.1 ?_, ih bs hab.2 ?_⟩
        · rintro m r n r' rfl rfl
          exact hf m r (by simp) n r' (by simp)
        · intro m r hm n r' hn
          exact hf m r (by simp [hm]) n r' (by simp [hn])
  refine ⟨fun x hs ht => key _ _ (h.on x hs ht) fun m r hm n r' hn => ?_, fun v m n hm hn => ?_⟩
  · exact hf m (State.mem_successors_of_on hm) n (State.mem_successors_of_on hn)
  · exact hf m (State.mem_successors_of_goto? hm) n (State.mem_successors_of_goto? hn)
      (h.goto v m n hm hn)

theorem agrees_of_compatible {overlaps tokens : Array TokenSet} {states : Array State}
    {table : Array Nat} {i j : Nat} (h : compatible overlaps tokens states table i j = true)
    {s t : State} (hs : states[i]? = some s) (ht : states[j]? = some t) :
    Agrees (fun x => table[x]?.getD 0) s t := by
  simp only [compatible, hs, ht, Bool.and_eq_true, Array.all_eq_true'] at h
  obtain ⟨⟨⟨hactions, -⟩, -⟩, hgotos⟩ := h
  refine ⟨fun x hsx htx => ?_, fun v m n hm hn => ?_⟩
  · unfold State.on at hsx htx ⊢
    cases hsa : s.actions[TokenSet.position x]? with
    | none => simp [hsa] at hsx
    | some as =>
      cases hta : t.actions[TokenSet.position x]? with
      | none => simp [hta] at htx
      | some bs =>
        have hmem : (as, bs) ∈ s.actions.zip t.actions := by
          refine Array.mem_of_getElem? (i := TokenSet.position x) ?_
          simp [Array.getElem?_zip_eq_some, hsa, hta]
        have hsame := hactions _ hmem
        simp only [hsa, hta, Option.getD_some] at hsx htx ⊢
        simpa [sameActions, hsx, htx] using hsame
  · have hmem : (some m, some n) ∈ s.gotos.zip t.gotos := by
      refine Array.mem_of_getElem? (i := v) ?_
      rw [Array.getElem?_zip_eq_some]
      exact ⟨Option.join_eq_some_iff.1 hm, Option.join_eq_some_iff.1 hn⟩
    simpa using hgotos _ hmem

/-- A table that can be merged: its targets and cores are in range, its states have the same number
of entries, and the start state is not like the error state. -/
structure Mergeable (states : Array State) : Prop where
  targeted : Targeted states
  sized : ∃ a v, ∀ {q : Nat} {s : State}, states[q]? = some s → Sized a v s
  core_lt : ∀ {q : Nat} {s : State}, states[q]? = some s → s.core < states.size
  start : ∃ s t, states[0]? = some s ∧ states[1]? = some t ∧ s.core ≠ t.core

/-- What the groups of compatible states are. -/
structure Grouped (states : Array State) (groups : List (List Nat)) : Prop where
  partition : Partition states.size groups
  core : ∀ G ∈ groups, ∀ i ∈ G, ∀ j ∈ G, ∀ s t, states[i]? = some s → states[j]? = some t →
    s.core = t.core
  agrees : ∀ G ∈ groups, ∀ i ∈ G, ∀ j ∈ G, ∀ s t, states[i]? = some s → states[j]? = some t →
    Agrees (Partition.groupAt states.size groups) s t

theorem grouped_refine {overlaps tokens : Array TokenSet} {states : Array State}
    (h : Mergeable states) : Grouped states
      (refine states.size (compatible overlaps tokens states) (states.size + 1)
        (byCore states)) := by
  let P : List Nat → Prop := fun G => ∀ i ∈ G, ∀ j ∈ G, ∀ s t, states[i]? = some s →
    states[j]? = some t → s.core = t.core
  have hcore : ∀ G ∈ byCore states, P G := by
    intro G hG i hi j hj s t hs ht
    rw [byCore_eq] at hG
    obtain ⟨c, -, rfl⟩ := List.mem_map.1 hG
    obtain ⟨s', hs', hc⟩ := mem_withCore.1 hi
    obtain ⟨t', ht', hc'⟩ := mem_withCore.1 hj
    rw [hs] at hs'
    rw [ht] at ht'
    rw [Option.some.inj hs', Option.some.inj ht', hc, hc']
  have hsub : ∀ G K, P G → (∀ i ∈ K, i ∈ G) → P K :=
    fun G K hG hK i hi j hj => hG i (hK i hi) j (hK j hj)
  obtain ⟨hp, hP, hcoh⟩ := refine_coherent (compatible overlaps tokens states) hsub
    (states.size + 1) (partition_byCore h.core_lt) hcore (by omega)
  refine ⟨hp, hP, fun G hG i hi j hj s t hs ht => ?_⟩
  -- Of two members the later one has been compared with the earlier one.
  rcases Nat.lt_trichotomy i j with hij | rfl | hij
  · have hc := (hcoh G hG).of_lt (hp.ascending G hG) hi hj hij
    exact (agrees_of_compatible hc ht hs).symm
  · rw [hs] at ht
    rw [Option.some.inj ht]
    exact .refl _ t
  · have hc := (hcoh G hG).of_lt (hp.ascending G hG) hj hi hij
    exact agrees_of_compatible hc hs ht

theorem Grouped.perm {states : Array State} {groups groups' : List (List Nat)}
    (h : Grouped states groups) (ht : Targeted states) (hp : groups'.Perm groups) :
    Grouped states groups' := by
  refine ⟨h.partition.perm hp, fun G hG => h.core G (hp.mem_iff.1 hG),
    fun G hG i hi j hj s t hs ht' => ?_⟩
  refine (h.agrees G (hp.mem_iff.1 hG) i hi j hj s t hs ht').congr fun m hm n hn => ?_
  exact h.partition.groupAt_congr hp (ht hs m hm) (ht ht' n hn)

theorem grouped_groups (g : FlatGrammar) {states : Array State} (h : Mergeable states) :
    Grouped states (groups g states) :=
  (grouped_refine h).perm h.targeted (List.mergeSort_perm _ _)

/-- The first member of a group. -/
def first (G : List Nat) : Nat := G.head?.getD 0

theorem first_mem {G : List Nat} (h : G ≠ []) : first G ∈ G := by
  obtain ⟨i, rest, rfl⟩ := List.exists_cons_of_ne_nil h
  exact List.mem_cons_self

theorem first_le {G : List Nat} (h : G.Pairwise (· < ·)) {i : Nat} (hi : i ∈ G) : first G ≤ i := by
  cases G with
  | nil => cases hi
  | cons j G =>
    rcases List.mem_cons.1 hi with rfl | hi
    · exact Nat.le_refl _
    · exact Nat.le_of_lt ((List.pairwise_cons.1 h).1 i hi)

theorem sorted_groups (g : FlatGrammar) (states : Array State) :
    (groups g states).Pairwise fun G K => first G ≤ first K := by
  have h := @List.pairwise_mergeSort (List Nat) (fun a b => (a.head?.getD 0) ≤ (b.head?.getD 0))
    (fun a b c hab hbc => by simp only [decide_eq_true_eq] at *; omega)
    (fun a b => by simp only [Bool.or_eq_true, decide_eq_true_eq]; omega)
    (refine states.size (compatible g.overlaps (states.map (·.tokens)) states) (states.size + 1)
      (byCore states))
  simpa [groups, first] using h

/-- In sorted groups a number is in the group of its place if all numbers below it are so. -/
theorem groupAt_eq_self {n : Nat} {groups : List (List Nat)} (h : Partition n groups)
    (hs : groups.Pairwise fun G K => first G ≤ first K) {i : Nat} (hi : i < n)
    (hlt : ∀ j < i, Partition.groupAt n groups j = j)
    (hne : ∀ j < i, Partition.groupAt n groups i ≠ j) : Partition.groupAt n groups i = i := by
  obtain ⟨G, hG, hiG⟩ := h.exists_group hi
  have hge : ¬ Partition.groupAt n groups i < i := fun hk => hne _ hk rfl
  by_contra hself
  have hik : i < Partition.groupAt n groups i := by omega
  have hklt := (List.getElem?_eq_some_iff.1 hG).1
  have hK : groups[i]? = some groups[i] := List.getElem?_eq_getElem (hik.trans hklt)
  -- The first member of the group at place `i` would be `i` or below.
  have hle : first groups[i] ≤ first G := by
    have hG' := (List.getElem?_eq_some_iff.1 hG).2
    rw [← hG']
    exact List.pairwise_iff_getElem.1 hs i _ _ hklt hik
  have hmem : first groups[i] ∈ groups[i] := first_mem (h.ne_nil _ (List.getElem_mem _))
  have hat := h.groupAt_eq hK hmem
  have hfirst := first_le (h.ascending G (List.mem_of_getElem? hG)) hiG
  obtain hlt' | heq : first groups[i] < i ∨ first groups[i] = i := by omega
  · rw [hlt _ hlt'] at hat
    omega
  · rw [heq] at hat
    exact hself hat

theorem groupAt_start (g : FlatGrammar) {states : Array State} (h : Mergeable states) :
    Partition.groupAt states.size (groups g states) 1 = 1 := by
  have hg := grouped_groups g h
  have hsorted := sorted_groups g states
  obtain ⟨s, t, hs, ht, hne⟩ := h.start
  have h0 : 0 < states.size := (Array.getElem?_eq_some_iff.1 hs).1
  have h1 : 1 < states.size := (Array.getElem?_eq_some_iff.1 ht).1
  have hzero := groupAt_eq_self hg.partition hsorted h0 (by simp) (by simp)
  refine groupAt_eq_self hg.partition hsorted h1 (fun j hj => ?_) fun j hj hj' => ?_
  · obtain rfl : j = 0 := by omega
    exact hzero
  · obtain rfl : j = 0 := by omega
    obtain ⟨G, hG, h0G⟩ := hg.partition.exists_group h0
    obtain ⟨K, hK, h1K⟩ := hg.partition.exists_group h1
    rw [hj', ← hzero, hG] at hK
    obtain rfl := Option.some.inj hK
    exact hne (hg.core G (List.mem_of_getElem? hG) 0 h0G 1 h1K s t hs ht)

/-- One table has the states of another merged by groups. -/
structure Merges (states merged : Array State) (group : Nat → Nat) : Prop where
  state : ∀ {q : Nat} {s : State}, states[q]? = some s → ∃ m, merged[group q]? = some m ∧
    (∀ t, s.on t ≠ [] → m.on t = (s.on t).map (·.mapTarget group)) ∧
    ∀ v n, s.goto? v = some n → m.goto? v = some (group n)
  on : ∀ {k : Nat} {m : State} {t : Symbol}, merged[k]? = some m → m.on t ≠ [] →
    ∃ q s, group q = k ∧ states[q]? = some s ∧ m.on t = (s.on t).map (·.mapTarget group)
  goto : ∀ {k : Nat} {m : State} {v n : Nat}, merged[k]? = some m → m.goto? v = some n →
    ∃ q s n', group q = k ∧ states[q]? = some s ∧ s.goto? v = some n' ∧ group n' = n
  core : ∀ {p q : Nat} {s t : State}, states[p]? = some s → states[q]? = some t →
    group p = group q → s.core = t.core
  lt : ∀ {q : Nat}, q < states.size → group q < merged.size
  start : group 1 = 1

/-- The group that a state is merged into. -/
def group (g : FlatGrammar) (states : Array State) : Nat → Nat :=
  Partition.groupAt states.size (groups g states)

section Members

variable {states : Array State} {G : List Nat} {a v : Nat} {s : State}

/-- The states of a group. -/
def members (states : Array State) (G : List Nat) : List State :=
  G.filterMap fun i => states[i]?

theorem mem_members : s ∈ members states G ↔ ∃ i ∈ G, states[i]? = some s := List.mem_filterMap

theorem Partition.members_ne_nil {groups : List (List Nat)} (h : Partition states.size groups)
    (hG : G ∈ groups) : members states G ≠ [] := by
  obtain ⟨i, hi⟩ := List.exists_mem_of_ne_nil _ (h.ne_nil G hG)
  have hlt := h.mem.1 (List.mem_flatten.2 ⟨G, hG, hi⟩)
  exact List.ne_nil_of_mem (mem_members.2 ⟨i, hi, Array.getElem?_eq_getElem hlt⟩)

theorem sized_members (h : ∀ {q : Nat} {s : State}, states[q]? = some s → Sized a v s) :
    ∀ s ∈ members states G, Sized a v s := by
  intro s hs
  obtain ⟨i, -, hi⟩ := mem_members.1 hs
  exact h hi

theorem Grouped.agrees_members {groups : List (List Nat)} (h : Grouped states groups)
    (hG : G ∈ groups) {q : Nat} (hq : q ∈ G) (hs : states[q]? = some s) :
    ∀ s' ∈ members states G, Agrees (Partition.groupAt states.size groups) s' s := by
  intro s' hs'
  obtain ⟨i, hi, hs'⟩ := mem_members.1 hs'
  exact h.agrees G hG i hi q hq s' s hs' hs

/-- Where the members have the same entries up to a renaming, those are the entries. -/
theorem on_union_eq {f : Nat → Nat} {ss : List State} (h : ∀ s ∈ ss, Sized a v s)
    (hf : ∀ s' ∈ ss, Agrees f s' s) (hs : s ∈ ss) {x : Symbol} (hx : s.on x ≠ []) :
    ((union ss).on x).map (·.mapTarget f) = (s.on x).map (·.mapTarget f) := by
  obtain ⟨⟨s', hs', heq⟩, hto⟩ := on_union h (List.ne_nil_of_mem hs) x
  have hne := hto ⟨s, hs, hx⟩
  rw [← heq] at hne ⊢
  exact (hf s' hs').on x hne hx

theorem goto?_union_eq {f : Nat → Nat} {ss : List State} (h : ∀ s ∈ ss, Sized a v s)
    (hf : ∀ s' ∈ ss, Agrees f s' s) (hs : s ∈ ss) {x n : Nat} (hx : s.goto? x = some n) :
    ∃ n', (union ss).goto? x = some n' ∧ f n' = f n := by
  obtain ⟨⟨s', hs', heq⟩, hto⟩ := goto?_union h (List.ne_nil_of_mem hs) x
  obtain ⟨n', hn'⟩ := Option.ne_none_iff_exists'.1 (hto ⟨s, hs, by simp [hx]⟩)
  exact ⟨n', hn', (hf s' hs').goto x n' n (heq.trans hn') hx⟩

theorem getElem?_states (g : FlatGrammar) (states : Array State) (k : Nat) :
    (Merge.states g states)[k]? = (groups g states)[k]?.map fun G =>
      (union (members states G)).mapTargets (group g states) := by
  rw [Merge.states, List.getElem?_toArray, List.getElem?_map]
  rfl

end Members

theorem merges (g : FlatGrammar) {states : Array State} (h : Mergeable states) :
    Merges states (Merge.states g states) (group g states) := by
  have hg := grouped_groups g h
  obtain ⟨a, v, hsized⟩ := h.sized
  have hne : ∀ {k : Nat} {G : List Nat}, (groups g states)[k]? = some G → members states G ≠ [] :=
    fun hG => hg.partition.members_ne_nil (List.mem_of_getElem? hG)
  refine ⟨fun {q s} hs => ?_, fun {k m t} hm ht => ?_, fun {k m x n} hm hn => ?_,
    fun {p q s t} hs ht hpq => ?_, fun {q} hq => ?_, groupAt_start g h⟩
  · obtain ⟨G, hG, hq⟩ := hg.partition.exists_group (Array.getElem?_eq_some_iff.1 hs).1
    have hmem := mem_members.2 ⟨q, hq, hs⟩
    have hagrees := hg.agrees_members (List.mem_of_getElem? hG) hq hs
    refine ⟨_, by rw [getElem?_states, group, hG]; rfl, fun t ht => ?_, fun x n hn => ?_⟩
    · rw [State.on_mapTargets]
      exact on_union_eq (sized_members hsized) hagrees hmem ht
    · exact State.goto?_mapTargets_eq_some.2
        (goto?_union_eq (sized_members hsized) hagrees hmem hn)
  · rw [getElem?_states] at hm
    obtain ⟨G, hG, rfl⟩ := Option.map_eq_some_iff.1 hm
    obtain ⟨⟨s, hs, heq⟩, -⟩ := on_union (sized_members hsized) (hne hG) t
    obtain ⟨i, hi, hs⟩ := mem_members.1 hs
    exact ⟨i, s, hg.partition.groupAt_eq hG hi, hs, by rw [State.on_mapTargets, heq]⟩
  · rw [getElem?_states] at hm
    obtain ⟨G, hG, rfl⟩ := Option.map_eq_some_iff.1 hm
    obtain ⟨n', hn', rfl⟩ := State.goto?_mapTargets_eq_some.1 hn
    obtain ⟨⟨s, hs, heq⟩, -⟩ := goto?_union (sized_members hsized) (hne hG) x
    obtain ⟨i, hi, hs⟩ := mem_members.1 hs
    exact ⟨i, s, n', hg.partition.groupAt_eq hG hi, hs, heq.trans hn', rfl⟩
  · obtain ⟨G, hG, hp⟩ := hg.partition.exists_group (Array.getElem?_eq_some_iff.1 hs).1
    obtain ⟨K, hK, hq⟩ := hg.partition.exists_group (Array.getElem?_eq_some_iff.1 ht).1
    have hpq' : Partition.groupAt states.size (groups g states) p =
      Partition.groupAt states.size (groups g states) q := hpq
    rw [← hpq', hG] at hK
    obtain rfl := Option.some.inj hK
    exact hg.core G (List.mem_of_getElem? hG) p hp q hq s t hs ht
  · obtain ⟨G, hG, -⟩ := hg.partition.exists_group hq
    have hlt := (List.getElem?_eq_some_iff.1 hG).1
    simpa [Merge.states, group] using hlt

end GrammarTables.Merge
