import ConstrainedDecoding.Proofs.FreeText

/-!
# The trigger that tells a tag

A tag is told by the shortest trigger that it begins with. After free text, the watcher takes the
beginning of a tag for one if that trigger is the first to be completed and the longest that is
completed there; then the tag is among those which the trigger tells.
-/
namespace ConstrainedDecoding

open Tag (Triggers)

/-! ## Shortest triggers -/

/-- A string that begins another one is no longer, and is it if it is as long. -/
theorem String.utf8ByteSize_le_of_prefix {s t : String} (h : s.toList <+: t.toList) :
    s.utf8ByteSize ≤ t.utf8ByteSize ∧ (s.utf8ByteSize = t.utf8ByteSize → s = t) := by
  obtain ⟨rest, hrest⟩ := h
  have ht : t = s ++ String.ofList rest := String.toList_inj.1 (by simp [hrest])
  have size : t.utf8ByteSize = s.utf8ByteSize + (String.ofList rest).utf8ByteSize := by
    rw [ht, String.utf8ByteSize_append]
  refine ⟨by omega, fun heq => ?_⟩
  have : String.ofList rest = "" := String.utf8ByteSize_eq_zero_iff.1 (by omega)
  simp [ht, this]

namespace Tag

/-- A trigger is the shortest one that a text begins with. -/
structure Shortest (words : List (List Char)) (opening s : List Char) : Prop where
  mem : s ∈ words
  begins : s <+: opening
  length_le : ∀ t ∈ words, t <+: opening → s.length ≤ t.length

theorem Shortest.unique {words : List (List Char)} {opening s s' : List Char}
    (h : Shortest words opening s) (h' : Shortest words opening s') : s = s' := by
  have hlen : s.length = s'.length :=
    Nat.le_antisymm (h.length_le s' h'.mem h'.begins) (h'.length_le s h.mem h.begins)
  exact (List.prefix_of_prefix_length_le h.begins h'.begins hlen.le).eq_of_length hlen

/-- The better of two entries: the smaller one, or the first of equal ones. -/
private def better (best : Option (Nat × Nat)) (x : String × Nat) : Option (Nat × Nat) :=
  match best with
  | some (n, _) => if x.1.utf8ByteSize < n then some (x.1.utf8ByteSize, x.2) else best
  | none => some (x.1.utf8ByteSize, x.2)

/-- An entry is the first of the smallest ones. -/
private structure Smallest (xs : List (String × Nat)) (n k : Nat) : Prop where
  mem : ∃ s, (s, k) ∈ xs ∧ s.utf8ByteSize = n
  le : ∀ x ∈ xs, n ≤ x.1.utf8ByteSize ∧ (x.1.utf8ByteSize = n → k ≤ x.2)

private theorem smallest_of_foldl {xs : List (String × Nat)} (h : xs.Pairwise fun x y => x.2 < y.2) :
    (xs.foldl better none = none → xs = []) ∧
      ∀ n k, xs.foldl better none = some (n, k) → Smallest xs n k := by
  induction xs using List.reverseRecOn with
  | nil => exact ⟨fun _ => rfl, by simp⟩
  | append_singleton xs x ih =>
    obtain ⟨hxs, -, hlast⟩ := List.pairwise_append.1 h
    obtain ⟨empty, found⟩ := ih hxs
    simp only [List.foldl_append, List.foldl_cons, List.foldl_nil]
    cases hs : xs.foldl better none with
    | none =>
      obtain rfl := empty hs
      refine ⟨by simp [better], ?_⟩
      rintro n k ⟨⟩
      exact ⟨⟨x.1, by simp, rfl⟩, by simp⟩
    | some best =>
      obtain ⟨n, k⟩ := best
      obtain ⟨⟨s, hmem, hn⟩, hall⟩ := found n k hs
      by_cases hlt : x.1.utf8ByteSize < n
      · simp only [better, hlt, if_true]
        refine ⟨by simp, ?_⟩
        rintro _ _ ⟨⟩
        refine ⟨⟨x.1, by simp, rfl⟩, List.forall_mem_append.2 ⟨fun y hy => ?_, by simp⟩⟩
        have := (hall y hy).1
        exact ⟨by omega, by omega⟩
      · simp only [better, hlt, if_false]
        refine ⟨by simp, ?_⟩
        rintro _ _ ⟨⟩
        refine ⟨⟨s, by simp [hmem], hn⟩, List.forall_mem_append.2 ⟨hall, ?_⟩⟩
        simp only [List.mem_singleton, forall_eq]
        exact ⟨by omega, fun _ => (hlast (s, k) hmem x (by simp)).le⟩

variable {triggers : List String} {tag : Tag} {k : Nat}

/-- A tag is told by the first of the shortest triggers that it begins with. -/
theorem tellingTrigger?_eq_some : tag.tellingTrigger? triggers = some k ↔
    ∃ s, Shortest (triggers.map String.toList) tag.opening.toList s ∧
      (triggers.map String.toList).findIdx? (· == s) = some k := by
  let begins := triggers.zipIdx.filter fun x => x.1.toList.isPrefixOf tag.opening.toList
  have run : tag.tellingTrigger? triggers = (begins.foldl better none).map (·.2) := rfl
  have mem_begins (t : String) (j : Nat) :
      (t, j) ∈ begins ↔ triggers[j]? = some t ∧ t.toList <+: tag.opening.toList := by
    simp [begins, List.mk_mem_zipIdx_iff_getElem?]
  have ascending : begins.Pairwise fun x y => x.2 < y.2 := by
    refine List.Pairwise.filter _ (List.pairwise_map.1 ?_)
    rw [List.zipIdx_map_snd]
    exact List.pairwise_lt_range'
  obtain ⟨empty, found⟩ := smallest_of_foldl ascending
  have forward {n k : Nat} (hs : begins.foldl better none = some (n, k)) :
      ∃ s, Shortest (triggers.map String.toList) tag.opening.toList s ∧
        (triggers.map String.toList).findIdx? (· == s) = some k := by
    obtain ⟨⟨s, hmem, rfl⟩, hall⟩ := found n k hs
    obtain ⟨hk, hprefix⟩ := (mem_begins s k).1 hmem
    obtain ⟨hlt, hget⟩ := List.getElem?_eq_some_iff.1 hk
    refine ⟨s.toList, ⟨List.mem_map_of_mem (List.mem_of_getElem? hk), hprefix, ?_⟩, ?_⟩
    · intro _ hword hbegins
      obtain ⟨t, ht, rfl⟩ := List.mem_map.1 hword
      obtain ⟨j, hj⟩ := List.mem_iff_getElem?.1 ht
      have hle := (hall (t, j) ((mem_begins t j).2 ⟨hj, hbegins⟩)).1
      rcases List.prefix_or_prefix_of_prefix hprefix hbegins with h | h
      · exact h.length_le
      · obtain ⟨hge, heq⟩ := String.utf8ByteSize_le_of_prefix h
        rw [heq (Nat.le_antisymm hge hle)]
    · refine List.findIdx?_eq_some_iff_getElem.2 ⟨by simpa using hlt, by simp [hget], fun j hj heq => ?_⟩
      have hj' : j < triggers.length := hj.trans hlt
      have heq : triggers[j] = s := String.toList_inj.1 (by simpa using heq)
      have := (hall (s, j) ((mem_begins s j).2 ⟨by simp [hj', heq], hprefix⟩)).2 rfl
      omega
  rw [run]
  constructor
  · intro h
    obtain ⟨⟨n, k⟩, hs, rfl⟩ := Option.map_eq_some_iff.1 h
    exact forward hs
  · rintro ⟨s, hs, hk⟩
    cases hfold : begins.foldl better none with
    | none =>
      obtain ⟨t, ht, rfl⟩ := List.mem_map.1 hs.mem
      obtain ⟨j, hj⟩ := List.mem_iff_getElem?.1 ht
      have := (mem_begins t j).2 ⟨hj, hs.begins⟩
      simp [empty hfold] at this
    | some best =>
      obtain ⟨s', hs', hk'⟩ := forward hfold
      rw [hs.unique hs', hk'] at hk
      exact hk

end Tag

/-! ## Tags after free text -/

namespace TagDescription

variable {d : TagDescription} {x : List Char} {tag : Tag}

/-- After free text, a tag is told by a trigger: the shortest one that the tag begins with is the
first to be completed, and no longer one is completed with it. -/
structure ToldBy (d : TagDescription) (x : List Char) (tag : Tag) (s : List Char) : Prop where
  shortest : Tag.Shortest (d.triggers.map String.toList) tag.opening.toList s
  first : ∀ y, y <+: x ++ tag.opening.toList → (∃ t ∈ d.triggers, t.toList <:+ y) →
    (x ++ s).length ≤ y.length
  longest : ∀ t ∈ d.triggers, t.toList <:+ x ++ s → t.toList.length ≤ s.length

private theorem getElem?_of_findIdx? {triggers : List String} {s : List Char} {k : Nat}
    (h : (triggers.map String.toList).findIdx? (· == s) = some k) :
    ∃ trigger, triggers[k]? = some trigger ∧ trigger.toList = s := by
  obtain ⟨hlt, heq, -⟩ := List.findIdx?_eq_some_iff_getElem.1 h
  have hlt' : k < triggers.length := by simpa using hlt
  exact ⟨triggers[k], by simp [hlt'], by simpa using heq⟩

/-- The watcher enters a tag where free text and the trigger that tells the tag end. -/
theorem ToldBy.enters {s : List Char} (h : d.ToldBy x tag s) : ∃ k trigger,
    d.triggers[k]? = some trigger ∧ trigger.toList = s ∧
    (Triggers.ofStrings d.triggers).Enters (x ++ s) k ∧ tag.tellingTrigger? d.triggers = some k := by
  have begins : x ++ s <+: x ++ tag.opening.toList :=
    (List.prefix_append_right_inj x).2 h.shortest.begins
  obtain ⟨k, hk⟩ : ∃ k, (d.triggers.map String.toList).findIdx? (· == s) = some k := by
    rw [← Option.isSome_iff_exists, List.findIdx?_isSome]
    exact List.any_eq_true.2 ⟨s, h.shortest.mem, by simp⟩
  obtain ⟨trigger, htrigger, heq⟩ := getElem?_of_findIdx? hk
  refine ⟨k, trigger, htrigger, heq, ⟨Triggers.completed?_eq_some.2 ⟨s, ⟨h.shortest.mem, List.suffix_append x s, ?_⟩, hk⟩, ?_⟩,
    Tag.tellingTrigger?_eq_some.2 ⟨s, h.shortest, hk⟩⟩
  · rintro _ hword hsuffix
    obtain ⟨t, ht, rfl⟩ := List.mem_map.1 hword
    exact h.longest t ht hsuffix
  · refine fun y hy hne => Triggers.completed?_eq_none.2 ?_
    rintro _ hword hsuffix
    obtain ⟨t, ht, rfl⟩ := List.mem_map.1 hword
    exact hne (hy.eq_of_length_le (h.first y (hy.trans begins) ⟨t, ht, hsuffix⟩))

/-- Where the watcher enters a tag, free text and the trigger that tells the tag have ended. -/
theorem exists_toldBy {y : List Char} {k : Nat} (h : (Triggers.ofStrings d.triggers).Enters y k)
    (htag : tag.tellingTrigger? d.triggers = some k) : ∃ x trigger, d.triggers[k]? = some trigger ∧
      y = x ++ trigger.toList ∧ d.ToldBy x tag trigger.toList := by
  obtain ⟨s, hlongest, hs⟩ := Triggers.completed?_eq_some.1 h.completed
  obtain ⟨s', hshortest, hs'⟩ := Tag.tellingTrigger?_eq_some.1 htag
  obtain ⟨x, rfl⟩ := hlongest.suffix
  -- both are the trigger with number `k`
  obtain ⟨trigger, htrigger, rfl⟩ := getElem?_of_findIdx? hs
  obtain ⟨trigger', htrigger', rfl⟩ := getElem?_of_findIdx? hs'
  obtain rfl := Option.some.inj (htrigger.symm.trans htrigger')
  have begins : x ++ trigger.toList <+: x ++ tag.opening.toList :=
    (List.prefix_append_right_inj x).2 hshortest.begins
  refine ⟨x, trigger, htrigger, rfl, hshortest, ?_, fun t ht hsuffix =>
    hlongest.length_le _ (List.mem_map_of_mem ht) hsuffix⟩
  rintro y hy ⟨t, ht, hsuffix⟩
  by_contra hlt
  have hprefix : y <+: x ++ trigger.toList := List.prefix_of_prefix_length_le hy begins (by omega)
  have hne : y ≠ x ++ trigger.toList := by
    rintro rfl
    exact hlt le_rfl
  exact Triggers.completed?_eq_none.1 (h.before y hprefix hne) _ (List.mem_map_of_mem ht) hsuffix

end TagDescription

end ConstrainedDecoding
